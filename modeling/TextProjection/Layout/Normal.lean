import TextProjection.Layout

/-! The normal form of a layout: no pair is deleted, no two fragments touch, none is
empty unless it is the only one, and the segments are laid out.
-/

set_option autoImplicit false

namespace TextProjection.Layout

/-- Drop deleted pairs and empty ones. With `spare`, the first empty pair is kept. -/
def sift (spare : Bool) : List Pair → List Pair
  | [] => []
  | pair :: rest =>
    if pair.deleted then sift spare rest
    else if pair.fragment.length = 0 then
      if spare then pair :: sift false rest else sift false rest
    else pair :: sift spare rest

def fuseFrom (left : Pair) : List Pair → List Pair
  | [] => [left]
  | right :: rest =>
    if left.fragment.stop = right.fragment.offset then fuseFrom (left.join right) rest
    else left :: fuseFrom right rest

def fuse : List Pair → List Pair
  | [] => []
  | left :: rest => fuseFrom left rest

def showsNothing (layout : Layout) : Bool :=
  !layout.pairs.any fun pair => !pair.deleted && 0 < pair.fragment.length

/-- The pairs that are left after dropping and joining. An empty pair is worth keeping
only where nothing is shown. -/
def condense (layout : Layout) : List Pair := fuse (sift layout.showsNothing layout.pairs)

def condenses (layout : Layout) : Bool := layout.condense.length ≠ layout.size

/-- The normal form. Where every pair was dropped, a single empty fragment stands at
the anchor. -/
def normalForm (layout : Layout) (anchor : Option Nat) : Layout :=
  match layout.condense, anchor with
  | [], some anchor =>
    if layout.condenses then ({} : Layout).insert 0 ⟨anchor, 0, false⟩ |>.layOut else {}
  | pairs, _ => layOut ⟨pairs⟩

/-! Normalization in place: one pass drops pairs and another one joins them, each with an index
into the pairs that are left by then. -/

end TextProjection.Layout
