import TextProjection.Region

/-! An interval is a range that moves with the text it covers, when characters are replaced
in that text. One before the splice stays, one after it is carried along, and one that was
partly removed keeps the rest. Inserted characters go to an interval that they fall into.
One strictly inside the removed characters is marked deleted; whoever keeps the interval
drops it then.
-/

set_option autoImplicit false

namespace TextProjection

structure Interval where
  offset : Nat
  length : Nat
  deleted : Bool := false
  deriving DecidableEq, Repr

namespace Interval

def stop (interval : Interval) : Nat := interval.offset + interval.length

def region (interval : Interval) : Region := ⟨interval.offset, interval.length⟩

def stop? (interval : Interval) : Option Nat := interval.region.stop?

def delete (interval : Interval) : Interval := { interval with deleted := true }

def moveTo (interval : Interval) (region : Region) : Interval :=
  { interval with offset := region.offset, length := region.length }

def contains (interval : Interval) (position : Nat) : Bool :=
  interval.offset ≤ position && position < interval.stop

def contains? (interval : Interval) (position : Nat) : Option Bool :=
  if interval.offset ≤ position then interval.stop?.map (position < ·) else some false

/-- Whether the interval meets a region, unless an end is needed for that and is no word.
An empty region is met by an interval it lies in, or by an empty one at the same offset;
an empty interval meets the regions that contain its offset. -/
def meets? (interval : Interval) (region : Region) : Option Bool := do
  let stop ← region.stop?
  if 0 < region.length then
    if 0 < interval.length then
      if interval.offset < stop then interval.stop?.map (region.offset < ·) else some false
    else some (region.offset ≤ interval.offset && interval.offset < stop)
  else if 0 < interval.length then interval.contains? region.offset
  else some (interval.offset == region.offset)

end Interval

/-- At `offset`, `removed` characters make way for `inserted` ones. -/
structure Splice where
  offset : Nat
  removed : Nat
  inserted : Nat
  deriving DecidableEq, Repr

/-- Whether characters inserted exactly where an interval ends belong to it. -/
inductive EndRule where
  | exclusive
  | lastGrows
  deriving DecidableEq, Repr

namespace Splice

def removedStop (splice : Splice) : Nat := splice.offset + splice.removed

def closeUp (splice : Splice) (position : Nat) : Nat :=
  if position ≤ splice.offset then position
  else if position ≤ splice.removedStop then splice.offset
  else position - splice.removed

end Splice

namespace Interval

def Swallowed (splice : Splice) (interval : Interval) : Prop :=
  0 < splice.removed ∧ splice.offset < interval.offset ∧ interval.stop < splice.removedStop

def Replaced (splice : Splice) (interval : Interval) : Prop :=
  0 < splice.removed ∧ interval.offset = splice.offset ∧ interval.length = splice.removed

instance (splice : Splice) (interval : Interval) : Decidable (interval.Swallowed splice) :=
  inferInstanceAs (Decidable (_ ∧ _))

instance (splice : Splice) (interval : Interval) : Decidable (interval.Replaced splice) :=
  inferInstanceAs (Decidable (_ ∧ _))

def cut (splice : Splice) (interval : Interval) : Interval :=
  let start := splice.closeUp interval.offset
  { interval with offset := start, length := splice.closeUp interval.stop - start }

/-- Take in the inserted characters or make room for them. `whole` is the interval
before the removal; if the removal shortened it, characters at its end are its own. -/
def insert (splice : Splice) (rule : EndRule) (isLast : Bool) (whole rest : Interval) : Interval :=
  let shortened := 0 < splice.removed ∧ rest.length < whole.length
  let reach :=
    if shortened ∨ (isLast ∧ rule = .lastGrows) ∨ rest.length = 0 then rest.stop
    else rest.stop - 1
  if splice.inserted = 0 ∨ reach < splice.offset then rest
  else if rest.offset ≤ splice.offset ∧ (splice.removed = 0 ∨ whole.offset ≤ splice.offset) then
    { rest with length := rest.length + splice.inserted }
  else { rest with offset := rest.offset + splice.inserted }

def drift (splice : Splice) (rule : EndRule) (isLast : Bool) (interval : Interval) : Interval :=
  if interval.deleted then interval
  else if interval.Swallowed splice then interval.delete
  else if interval.Replaced splice then { interval with length := splice.inserted }
  else insert splice rule isLast interval (interval.cut splice)

def driftAll (splice : Splice) (rule : EndRule) : List Interval → List Interval
  | [] => []
  | interval :: rest => interval.drift splice rule rest.isEmpty :: driftAll splice rule rest

/-- Each sum that is formed for the drift is a word. -/
def Driftable (splice : Splice) (rule : EndRule) (isLast : Bool) (interval : Interval) : Prop :=
  interval.deleted = true ∨ splice.removedStop < Offset.bound ∧ (interval.Replaced splice ∨
    (0 < splice.removed ∨ 0 < splice.inserted → interval.stop < Offset.bound) ∧
      (interval.drift splice rule isLast).offset < Offset.bound ∧
      (interval.drift splice rule isLast).length < Offset.bound)

instance (splice : Splice) (rule : EndRule) (isLast : Bool) (interval : Interval) :
    Decidable (interval.Driftable splice rule isLast) :=
  inferInstanceAs (Decidable (_ ∨ _ ∧ (_ ∨ _)))

def drift? (splice : Splice) (rule : EndRule) (isLast : Bool) (interval : Interval) :
    Option Interval :=
  if interval.Driftable splice rule isLast then some (interval.drift splice rule isLast) else none

def driftAll? (splice : Splice) (rule : EndRule) : List Interval → Option (List Interval)
  | [] => some []
  | interval :: rest => do
    let first ← interval.drift? splice rule rest.isEmpty
    let others ← driftAll? splice rule rest
    some (first :: others)

theorem length_driftAll (splice : Splice) (rule : EndRule) (intervals : List Interval) :
    (driftAll splice rule intervals).length = intervals.length := by
  induction intervals with
  | nil => rfl
  | cons _ _ ih => simp [driftAll, ih]

end Interval

end TextProjection
