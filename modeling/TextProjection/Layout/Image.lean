import TextProjection.Layout

/-! Images and origins: where characters of the master appear in the projection, and
where characters of the projection come from.

The questions are answered for any list of pairs; the answers make sense where the
pairs are live, in order and laid out.
-/

set_option autoImplicit false

namespace TextProjection

namespace Pair

def imageOf (pair : Pair) (offset : Nat) : Nat :=
  pair.segment.offset + offset - pair.fragment.offset

def originOf (pair : Pair) (offset : Nat) : Nat :=
  pair.fragment.offset + offset - pair.segment.offset

end Pair

namespace Layout

/-- Which fragment stands in for an offset that lies in none. -/
inductive Fallback where
  | none
  | left
  | right
  deriving DecidableEq, Repr

def imageStop (layout : Layout) : Nat := layout.pairs.getLast?.elim 0 (·.segment.stop)

def fragmentAt? (layout : Layout) (offset : Nat) (fallback : Fallback) : Option Nat :=
  let index := layout.firstFrom offset
  if layout.pairs[index]?.any (·.fragment.offset == offset) then some index
  else if 0 < index ∧ layout.pairs[index - 1]?.any (·.fragment.contains offset) then
    some (index - 1)
  else
    match fallback with
    | .none => none
    | .left => if 0 < index then some (index - 1) else none
    | .right => if index < layout.size then some index else none

/-- Index of the segment that contains a projection offset. The offset where the last
segment ends belongs to that segment. -/
def segmentAt? (layout : Layout) (offset : Nat) : Option Nat :=
  match bisect (·.segment.offset ≤ offset) layout.pairs with
  | 0 => none
  | index + 1 =>
    let holds (pair : Pair) : Bool :=
      pair.segment.contains offset ||
        (pair.segment.length == 0 && pair.segment.offset == offset) ||
        (index + 1 == layout.size && pair.segment.stop == offset)
    if layout.pairs[index]?.any holds then some index else none

def imageOffset? (layout : Layout) (offset : Nat) : Option Nat :=
  let pair? :=
    match layout.fragmentAt? offset .none with
    | some index => layout.pairs[index]?
    | none => layout.pairs.getLast?.filter (·.fragment.stop == offset)
  pair?.map (·.imageOf offset)

def Contiguous : List Pair → Bool
  | left :: right :: rest =>
    left.fragment.stop == right.fragment.offset && Contiguous (right :: rest)
  | _ => true

/-- Image of a master region that is shown as a whole. -/
def image? (layout : Layout) (origin : Region) : Option Region := do
  let stop ← origin.stop?
  if origin.isEmpty then
    (layout.imageOffset? origin.offset).map (⟨·, 0⟩)
  else
    let first ← layout.fragmentAt? origin.offset .none
    let last ← layout.fragmentAt? (stop - 1) .none
    if first ≤ last ∧ Contiguous ((layout.pairs.drop first).take (last - first + 1)) then
      let left ← layout.pairs[first]?
      let right ← layout.pairs[last]?
      some (.ofBounds (left.imageOf origin.offset) (right.imageOf stop))
    else none

/-- Image of whatever is shown of a master region. -/
def nearestImage? (layout : Layout) (origin : Region) : Option Region := do
  let stop ← origin.stop?
  if origin.isEmpty then layout.image? origin
  else
    let first ← layout.fragmentAt? origin.offset .right
    let last ← layout.fragmentAt? (stop - 1) .left
    if first ≤ last then
      let left ← layout.pairs[first]?
      let right ← layout.pairs[last]?
      let start :=
        if left.fragment.contains origin.offset then left.imageOf origin.offset
        else left.segment.offset
      let stop :=
        if right.fragment.contains (stop - 1) then right.imageOf stop
        else right.segment.stop
      some (.ofBounds start stop)
    else none

/-- Origin of a projection offset. Between two segments it is the start of the second
fragment, at the end of the projection the end of the last one. -/
def originOffset? (layout : Layout) (offset : Nat) : Option Nat := do
  let index ← layout.segmentAt? offset
  let pair ← layout.pairs[index]?
  some (pair.originOf offset)

/-- The part of a pair that shows characters of a projection region, as a master region. -/
def originWithin? (start stop : Nat) (pair : Pair) : Option Region :=
  let start := max start pair.segment.offset
  let stop := min stop pair.segment.stop
  if start < stop then some (.ofBounds (pair.originOf start) (pair.originOf stop)) else none

def origins? (layout : Layout) (image : Region) : Option (List Region) := do
  let stop ← image.stop?
  if layout.imageStop < stop then none
  else if image.isEmpty then
    (layout.originOffset? image.offset).map ([⟨·, 0⟩])
  else
    let first ← layout.segmentAt? image.offset
    let pairs := (layout.pairs.drop first).takeWhile (·.segment.offset < stop)
    some (pairs.filterMap (originWithin? image.offset stop))

/-- The master region from the first character of a projection region to its last one,
with the hidden text in between. -/
def hull? (layout : Layout) (image : Region) : Option Region := do
  let stop ← image.stop?
  if layout.imageStop < stop then none
  else
    let start ← layout.originOffset? image.offset
    if image.isEmpty then some ⟨start, 0⟩
    else
      let last ← layout.segmentAt? (stop - 1)
      let pair ← layout.pairs[last]?
      some (.ofBounds start (pair.originOf stop))

def shown (layout : Layout) (origin : Region) : List Region :=
  ((layout.nearestImage? origin).bind layout.origins?).getD []
    |>.filter (!·.isEmpty)

def gaps (cursor stop : Nat) : List Region → List Region
  | [] => if cursor < stop then [.ofBounds cursor stop] else []
  | region :: rest =>
    if cursor < region.offset then
      .ofBounds cursor region.offset :: gaps region.stop stop rest
    else gaps region.stop stop rest

def hidden (layout : Layout) (origin : Region) : List Region :=
  match origin.stop? with
  | none => []
  | some stop =>
    if origin.isEmpty then [] else gaps origin.offset stop (layout.shown origin)

def firstHidden? (layout : Layout) (origin : Region) : Option Region :=
  (layout.hidden origin).head?

end Layout

end TextProjection
