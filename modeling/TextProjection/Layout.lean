import TextProjection.Bisect
import TextProjection.Error
import TextProjection.Interval

/-! The layout of a projection pairs each fragment, a range of master text that is
shown, with its segment, the range where it is shown. The pairs stand in the order
of their fragments, and segments that are laid out follow one another from zero.
-/

set_option autoImplicit false

namespace TextProjection

structure Pair where
  fragment : Interval
  segment : Interval
  deriving DecidableEq, Repr

namespace Pair

def deleted (pair : Pair) : Bool := pair.fragment.deleted

def meets? (pair : Pair) (region : Region) : Option Bool :=
  if pair.deleted then some false else pair.fragment.meets? region

def join (left right : Pair) : Pair where
  fragment := { left.fragment with
    length := right.fragment.stop - left.fragment.offset }
  segment := { left.segment with
    length := left.segment.length + right.segment.length }

end Pair

structure Layout where
  pairs : List Pair := []
  deriving DecidableEq, Repr

namespace Layout

def size (layout : Layout) : Nat := layout.pairs.length

def isEmpty (layout : Layout) : Bool := layout.pairs.isEmpty

def fragments (layout : Layout) : List Region := layout.pairs.map (·.fragment.region)

def segments (layout : Layout) : List Region := layout.pairs.map (·.segment.region)

def firstFrom (layout : Layout) (offset : Nat) : Nat :=
  bisect (·.fragment.offset < offset) layout.pairs

def meetingAmong? (region : Region) : List Pair → Option (List Pair)
  | [] => some []
  | pair :: rest => do
    let stop ← region.stop?
    if stop < pair.fragment.offset then some []
    else
      let meets ← pair.meets? region
      let others ← meetingAmong? region rest
      some (if meets then pair :: others else others)

/-- The live pairs whose fragments meet a region, sought from the last fragment before it
on. None if an end that is looked at is no word. -/
def meeting? (layout : Layout) (region : Region) : Option (List Pair) :=
  meetingAmong? region (layout.pairs.drop (layout.firstFrom region.offset - 1))

def coveredLength (layout : Layout) : Nat :=
  (layout.pairs.filter (!·.deleted)).foldl (fun sum pair => sum + pair.segment.length) 0

def segmentStart (layout : Layout) (index : Nat) : Nat :=
  match index with
  | 0 => 0
  | previous + 1 => (layout.pairs[previous]?).elim 0 (·.segment.stop)

/-- Pair up a new fragment at `index`; the segments after it are not moved. -/
def insert (layout : Layout) (index : Nat) (fragment : Interval) : Layout :=
  ⟨layout.pairs.insertIdx index ⟨fragment, ⟨layout.segmentStart index, fragment.length, false⟩⟩⟩

def insert? (layout : Layout) (index : Nat) (fragment : Interval) : Option Layout :=
  if index ≤ layout.size then some (layout.insert index fragment) else none

def erase? (layout : Layout) (index : Nat) : Option (Pair × Layout) :=
  layout.pairs[index]?.map fun pair => (pair, ⟨layout.pairs.eraseIdx index⟩)

def join? (layout : Layout) (index : Nat) : Option Layout :=
  match layout.pairs[index]?, layout.pairs[index + 1]? with
  | some left, some right => some ⟨(layout.pairs.set index (left.join right)).eraseIdx (index + 1)⟩
  | _, _ => none

def modifyFragment? (layout : Layout) (index : Nat) (change : Interval → Interval) :
    Option Layout :=
  layout.pairs[index]?.map fun pair =>
    ⟨layout.pairs.set index { pair with fragment := change pair.fragment }⟩

def withFragments (layout : Layout) (fragments : List Interval) : Layout :=
  ⟨layout.pairs.zipWith (fun pair fragment => { pair with fragment }) fragments⟩

def drift (layout : Layout) (splice : Splice) (rule : EndRule) : Layout :=
  layout.withFragments (Interval.driftAll splice rule (layout.pairs.map (·.fragment)))

def drift? (layout : Layout) (splice : Splice) (rule : EndRule) : Option Layout :=
  (Interval.driftAll? splice rule (layout.pairs.map (·.fragment))).map layout.withFragments

/-- Segments of the fragments' lengths, one after the other from `start` on. A deleted
fragment has an empty segment, deleted too. -/
def tile (start : Nat) : List Pair → List Pair
  | [] => []
  | pair :: rest =>
    if pair.deleted then { pair with segment := ⟨start, 0, true⟩ } :: tile start rest
    else { pair with segment := ⟨start, pair.fragment.length, false⟩ } ::
      tile (start + pair.fragment.length) rest

def layOut (layout : Layout) : Layout := ⟨tile 0 layout.pairs⟩

def faultFrom? (index start : Nat) : List Pair → Option Fault
  | [] => none
  | pair :: rest =>
    if pair.deleted || pair.segment.deleted then some (.pairStillDeleted index)
    else if pair.fragment.length ≠ pair.segment.length then
      some (.lengthsDiffer index pair.fragment.length pair.segment.length)
    else if pair.segment.offset ≠ start then
      some (.segmentMisplaced index pair.segment.offset start)
    else if rest.head?.any (·.fragment.offset < pair.fragment.stop) then
      some (.fragmentsOverlap index)
    else faultFrom? (index + 1) pair.segment.stop rest

/-- None if all pairs are live, the segments are laid out and no fragments overlap. -/
def fault? (layout : Layout) : Option Fault := faultFrom? 0 0 layout.pairs

theorem map_fragment_tile (start : Nat) (pairs : List Pair) :
    (tile start pairs).map (·.fragment) = pairs.map (·.fragment) := by
  induction pairs generalizing start with
  | nil => rfl
  | cons pair rest ih => cases dead : pair.deleted <;> simp [tile, dead, ih]

theorem tile_tile (start : Nat) (pairs : List Pair) :
    tile start (tile start pairs) = tile start pairs := by
  induction pairs generalizing start with
  | nil => rfl
  | cons pair rest ih =>
    have same (segment : Interval) : { pair with segment }.deleted = pair.deleted := rfl
    cases dead : pair.deleted <;> simp [tile, dead, same, ih]

theorem layOut_layOut (layout : Layout) : layout.layOut.layOut = layout.layOut := by
  simp only [layOut, tile_tile]

theorem map_fragment_drift (layout : Layout) (splice : Splice) (rule : EndRule) :
    (layout.drift splice rule).pairs.map (·.fragment) =
      Interval.driftAll splice rule (layout.pairs.map (·.fragment)) := by
  have zipped (pairs : List Pair) (fragments : List Interval)
      (same : pairs.length = fragments.length) :
      (pairs.zipWith (fun pair fragment => { pair with fragment }) fragments).map (·.fragment) =
        fragments := by
    induction pairs generalizing fragments with
    | nil => simp [List.eq_nil_of_length_eq_zero same.symm]
    | cons pair rest ih =>
      cases fragments with
      | nil => simp at same
      | cons fragment others => simp [ih others (by simpa using same)]
  exact zipped _ _ (by simp [Interval.length_driftAll])

end Layout

end TextProjection
