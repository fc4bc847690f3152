import TextProjection.Proofs.Interval.Drift

/-! How the intervals of a collection drift, each with its place among the others. They take the
characters along that they cover, and what is inserted goes to one of them or to none.
-/

set_option autoImplicit false

namespace TextProjection

def Splice.Inserts (splice : Splice) (position : Nat) : Prop :=
  splice.offset ≤ position ∧ position < splice.offset + splice.inserted

namespace Interval

/-- An interval before and after a splice covers the same characters, apart from those that the splice
removes and inserts. -/
structure Carried (splice : Splice) (rule : EndRule) (isLast : Bool) (before after : Interval) :
    Prop where
  deleted_iff : after.deleted = true ↔ 0 < splice.removed ∧ splice.offset < before.offset ∧
    before.stop < splice.offset + splice.removed
  below : ∀ position < splice.offset, after.Covers position ↔ before.Covers position
  above : ∀ position, splice.offset + splice.removed ≤ position →
    (before.Covers position ↔ after.Covers (position - splice.removed + splice.inserted))
  inserted : ∀ position, splice.Inserts position → (after.Covers position ↔
    (before.offset ≤ splice.offset ∧ splice.offset < before.stop) ∨
      (before.length = 0 ∧ before.offset = splice.offset) ∨
        (rule = .lastGrows ∧ isLast = true ∧ before.stop = splice.offset))

variable {splice : Splice} {rule : EndRule} {isLast : Bool} {interval : Interval}
  {intervals : List Interval} {size : Nat}

theorem takes_iff : interval.Takes splice rule isLast ↔
    (interval.offset ≤ splice.offset ∧ splice.offset < interval.stop) ∨
      (interval.length = 0 ∧ interval.offset = splice.offset) ∨
        (rule = .lastGrows ∧ isLast = true ∧ interval.stop = splice.offset) := by
  have limit : interval.stop = interval.offset + interval.length := rfl
  unfold Takes
  constructor
  · rintro (inside | ⟨touches, empty | ⟨last, grows⟩⟩)
    · exact .inl inside
    · exact .inr (.inl ⟨empty, by omega⟩)
    · exact .inr (.inr ⟨grows, last, touches⟩)
  · rintro (inside | ⟨empty, here⟩ | ⟨grows, last, touches⟩)
    · exact .inl inside
    · exact .inr ⟨by omega, .inl empty⟩
    · exact .inr ⟨touches, .inr ⟨last, grows⟩⟩

theorem deleted_drift_iff (live : interval.deleted = false) :
    (interval.drift splice rule isLast).deleted = true ↔ interval.Vanishes splice := by
  rw [drift_eq live]
  split_ifs with vanishes
  · exact iff_of_true rfl vanishes
  · exact iff_of_false nofun vanishes

theorem carried_drift (live : interval.deleted = false) :
    interval.Carried splice rule isLast (interval.drift splice rule isLast) where
  deleted_iff := by
    have order := interval.offset_le_stop
    rw [deleted_drift_iff live]
    unfold Vanishes
    omega
  below position below := by rw [covers_drift live, if_pos below]
  above position past := by
    have back : position - splice.removed + splice.inserted - splice.inserted + splice.removed =
        position := by omega
    rw [covers_drift live, if_neg (by omega), if_neg (by omega), back]
  inserted position inserts := by
    obtain ⟨start, stop⟩ := inserts
    rw [covers_drift live, if_neg (Nat.not_lt.mpr start), if_pos stop, takes_iff]

/-! The intervals of a collection -/

theorem getElem?_driftAll (i : Nat) :
    (driftAll splice rule intervals)[i]? =
      intervals[i]?.map (·.drift splice rule (i + 1 = intervals.length)) := by
  induction intervals generalizing i with
  | nil => rfl
  | cons first rest ih =>
    cases i with
    | zero => cases rest <;> simp [driftAll]
    | succ i => simp [driftAll, ih]

theorem takes_unique (apart : intervals.Pairwise fun left right => left.stop < right.offset)
    {i j : Nat} {left right : Interval} (first : intervals[i]? = some left)
    (second : intervals[j]? = some right)
    (takes : left.Takes splice rule (i + 1 = intervals.length))
    (takes' : right.Takes splice rule (j + 1 = intervals.length)) : i = j := by
  -- The earlier one would end in front of the splice, or the later one would start behind it.
  have ordered {i j : Nat} {left right : Interval} (first : intervals[i]? = some left)
      (second : intervals[j]? = some right) {isLast isLast' : Bool}
      (takes : left.Takes splice rule isLast) (takes' : right.Takes splice rule isLast') :
      ¬ i < j := by
    intro before
    obtain ⟨low, rfl⟩ := List.getElem?_eq_some_iff.mp first
    obtain ⟨high, rfl⟩ := List.getElem?_eq_some_iff.mp second
    have gap := List.pairwise_iff_getElem.mp apart i j low high before
    have start := intervals[j].offset_le_stop
    unfold Takes at takes takes'
    omega
  exact Nat.le_antisymm (Nat.le_of_not_lt (ordered second first takes' takes))
    (Nat.le_of_not_lt (ordered first second takes takes'))

/-- Intervals with gaps between them take their characters along. What is inserted is covered by one of
them as a whole, or by none, and they do not come to overlap. -/
theorem driftAll_carries (room : splice.Fits size)
    (live : ∀ interval ∈ intervals, interval.deleted = false)
    (apart : intervals.Pairwise fun left right => left.stop < right.offset)
    (inside : ∀ interval ∈ intervals, interval.stop ≤ size) (rule : EndRule) :
    let after := driftAll splice rule intervals
    driftAll? splice rule intervals = some after ∧
    after.length = intervals.length ∧
    (∀ (i : Nat) (before : Interval), intervals[i]? = some before → ∃ drifted, after[i]? = some drifted ∧
      before.Carried splice rule (i + 1 = intervals.length) drifted) ∧
    (∀ (i j : Nat) (left right : Interval) (low high : Nat),
      after[i]? = some left → after[j]? = some right →
      splice.Inserts low → splice.Inserts high → left.Covers low → right.Covers high → i = j) ∧
    (after.Pairwise fun left right =>
      left.deleted = false → right.deleted = false → left.stop ≤ right.offset) ∧
    ∀ drifted ∈ after, drifted.deleted = false →
      drifted.stop ≤ size - splice.removed + splice.inserted := by
  intro after
  have carried (i : Nat) (before : Interval) (found : intervals[i]? = some before) :
      before.Carried splice rule (i + 1 = intervals.length)
        (before.drift splice rule (i + 1 = intervals.length)) :=
    carried_drift (live before (List.mem_of_getElem? found))
  refine ⟨driftAll?_eq room inside, length_driftAll splice rule intervals, fun i before found => ?_, ?_,
    pairwise_driftAll live apart, fun drifted member left => ?_⟩
  · exact ⟨_, by rw [getElem?_driftAll, found]; rfl, carried i before found⟩
  · intro i j left right low high first second inserts inserts' covers covers'
    rw [getElem?_driftAll, Option.map_eq_some_iff] at first second
    obtain ⟨before, found, rfl⟩ := first
    obtain ⟨before', found', rfl⟩ := second
    have takes := takes_iff.mpr (((carried i before found).inserted low inserts).mp covers)
    have takes' := takes_iff.mpr (((carried j before' found').inserted high inserts').mp covers')
    exact takes_unique apart found found' takes takes'
  · obtain ⟨front, before, back, split, rfl⟩ :=
      exists_mem_driftAll.mp ⟨drifted, member, (rfl : drifted = drifted)⟩
    have found : before ∈ intervals := by simp [split]
    rw [(bounds_drift (live before found) left).2]
    exact stopAfter_le room.removed_le (inside before found)

/-- Of three intervals, the first is cut short and receives what is inserted, the second is swallowed
and the third loses its first character. -/
theorem driftAll_carries_three :
    let after := driftAll ⟨2, 6, 2⟩ .lastGrows [⟨1, 2, false⟩, ⟨5, 0, false⟩, ⟨7, 3, false⟩]
    after = [⟨1, 3, false⟩, ⟨5, 0, true⟩, ⟨4, 2, false⟩] ∧
      after.Pairwise fun left right =>
        left.deleted = false → right.deleted = false → left.stop ≤ right.offset := by
  have room : Splice.Fits ⟨2, 6, 2⟩ 10 := ⟨by decide, by decide, by decide⟩
  have inside : ∀ interval ∈ [⟨1, 2, false⟩, ⟨5, 0, false⟩, ⟨7, 3, false⟩],
      Interval.stop interval ≤ 10 := by
    decide
  obtain ⟨-, -, -, -, ordered, -⟩ := driftAll_carries room (by decide) (by decide) inside .lastGrows
  exact ⟨by decide, ordered⟩

end Interval

end TextProjection
