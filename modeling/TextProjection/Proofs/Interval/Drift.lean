import TextProjection.Interval
import TextProjection.Proofs.Interval.Covers

/-! How an interval drifts, in terms of the characters it covers. Characters before the splice
stay, those past it are carried along, and the inserted ones are covered all or not at all.
-/

set_option autoImplicit false

namespace TextProjection

/-- The splice lies in a text of `size` characters that can be addressed before and after. -/
structure Splice.Fits (splice : Splice) (size : Nat) : Prop where
  size_lt : size < Offset.bound
  removed_le : splice.offset + splice.removed ≤ size
  size_after_lt : size - splice.removed + splice.inserted < Offset.bound

def Splice.carry (splice : Splice) (position : Nat) : Nat :=
  if position ≤ splice.offset + splice.removed then splice.offset + splice.inserted
  else position - splice.removed + splice.inserted

namespace Interval

/-- The interval receives the inserted characters: they fall into it, or they stand where it
ends and it is empty or the last one that may grow. -/
def Takes (splice : Splice) (rule : EndRule) (isLast : Bool) (interval : Interval) : Prop :=
  (interval.offset ≤ splice.offset ∧ splice.offset < interval.stop) ∨
    (interval.stop = splice.offset ∧ (interval.length = 0 ∨ isLast = true ∧ rule = .lastGrows))

instance (splice : Splice) (rule : EndRule) (isLast : Bool) (interval : Interval) :
    Decidable (interval.Takes splice rule isLast) :=
  inferInstanceAs (Decidable (_ ∨ _))

def Vanishes (splice : Splice) (interval : Interval) : Prop :=
  splice.offset < interval.offset ∧ interval.stop < splice.offset + splice.removed

instance (splice : Splice) (interval : Interval) : Decidable (interval.Vanishes splice) :=
  inferInstanceAs (Decidable (_ ∧ _))

def startAfter (splice : Splice) (interval : Interval) : Nat :=
  if interval.offset ≤ splice.offset then interval.offset else splice.carry interval.offset

def stopAfter (splice : Splice) (rule : EndRule) (isLast : Bool) (interval : Interval) : Nat :=
  if interval.Takes splice rule isLast ∨ splice.offset < interval.stop then
    splice.carry interval.stop
  else interval.stop

variable {splice : Splice} {rule : EndRule} {isLast : Bool} {interval : Interval} {size : Nat}

theorem cut_eq (live : interval.deleted = false) :
    interval.cut splice =
      ⟨splice.closeUp interval.offset,
        splice.closeUp interval.stop - splice.closeUp interval.offset, false⟩ := by
  simp only [cut, live]

theorem closeUp_eq (splice : Splice) (position : Nat) :
    splice.closeUp position =
      if position ≤ splice.offset then position
      else if position ≤ splice.offset + splice.removed then splice.offset
      else position - splice.removed := rfl

theorem insert_eq (splice : Splice) (rule : EndRule) (isLast : Bool) (whole : Interval)
    (low length : Nat) :
    insert splice rule isLast whole ⟨low, length, false⟩ =
      if splice.inserted = 0 ∨
          (if (0 < splice.removed ∧ length < whole.length) ∨
            (isLast = true ∧ rule = .lastGrows) ∨ length = 0 then low + length
          else low + length - 1) < splice.offset then
        ⟨low, length, false⟩
      else if low ≤ splice.offset ∧ (splice.removed = 0 ∨ whole.offset ≤ splice.offset) then
        ⟨low, length + splice.inserted, false⟩
      else ⟨low + splice.inserted, length, false⟩ := rfl

theorem insert_cut_of_before (live : interval.deleted = false)
    (before : interval.stop ≤ splice.offset) (refuses : ¬ interval.Takes splice rule isLast) :
    insert splice rule isLast interval (interval.cut splice) = interval := by
  have start := interval.offset_le_stop
  have same : interval.cut splice = ⟨interval.offset, interval.length, false⟩ := by
    rw [cut_eq live, closeUp_eq, closeUp_eq, if_pos before, if_pos (Nat.le_trans start before)]
    unfold Interval.stop
    rw [Nat.add_sub_cancel_left]
  -- Where it could grow it does not end at the splice, for it would take the characters then.
  have short (grows : (isLast = true ∧ rule = .lastGrows) ∨ interval.length = 0) :
      interval.stop < splice.offset := by
    by_contra touches
    exact refuses (.inr ⟨by omega, grows.symm⟩)
  unfold Interval.stop at *
  rw [same, insert_eq, if_pos, ← live]
  right
  split_ifs with reaches
  · exact short (reaches.resolve_left (by omega))
  · have solid : interval.length ≠ 0 := fun empty => reaches (.inr (.inr empty))
    omega

theorem insert_cut_of_takes (live : interval.deleted = false)
    (takes : interval.Takes splice rule isLast) :
    insert splice rule isLast interval (interval.cut splice) =
      ⟨interval.offset, splice.carry interval.stop - interval.offset, false⟩ := by
  have start := interval.offset_le_stop
  have low : interval.offset ≤ splice.offset := by
    unfold Takes at takes
    omega
  -- What the removal leaves ends at the splice or past it.
  obtain ⟨high, left, reaches, whole, carried⟩ : ∃ high, splice.closeUp interval.stop = high ∧
      splice.offset ≤ high ∧ (splice.removed = 0 → high = interval.stop) ∧
      splice.carry interval.stop = high + splice.inserted := by
    refine ⟨_, rfl, ?_⟩
    rw [closeUp_eq, Splice.carry]
    unfold Takes at takes
    split_ifs <;> omega
  have unmoved : splice.closeUp interval.offset = interval.offset := by
    rw [closeUp_eq, if_pos low]
  rw [cut_eq live, left, unmoved, insert_eq, carried]
  -- The end that is compared with the splice does not lie in front of it.
  by_cases none : splice.inserted = 0
  · rw [if_pos (.inl none), none, Nat.add_zero]
  · rw [if_neg, if_pos]
    · congr 1
      omega
    · omega
    · rintro (empty | short)
      · exact none empty
      · split_ifs at short with kept
        · omega
        · rcases takes with ⟨-, inside⟩ | ⟨touches, empty | grows⟩
          · unfold Interval.stop at *
            exact kept (.inl (by omega))
          · unfold Interval.stop at *
            exact kept (.inr (.inr (by omega)))
          · exact kept (.inr (.inl grows))

theorem insert_cut_of_after (live : interval.deleted = false)
    (past : splice.offset < interval.offset) :
    insert splice rule isLast interval (interval.cut splice) =
      ⟨splice.carry interval.offset, splice.carry interval.stop - splice.carry interval.offset,
        false⟩ := by
  have start := interval.offset_le_stop
  obtain ⟨low, first, lowReaches, lowWhole, lowCarried⟩ :
      ∃ low, splice.closeUp interval.offset = low ∧ splice.offset ≤ low ∧
        (splice.removed = 0 → low = interval.offset) ∧
        splice.carry interval.offset = low + splice.inserted := by
    refine ⟨_, rfl, ?_⟩
    rw [closeUp_eq, Splice.carry]
    split_ifs <;> omega
  obtain ⟨high, last, order, highCarried⟩ :
      ∃ high, splice.closeUp interval.stop = high ∧ low ≤ high ∧
        splice.carry interval.stop = high + splice.inserted := by
    refine ⟨_, rfl, ?_⟩
    rw [closeUp_eq] at first
    rw [closeUp_eq, Splice.carry]
    split_ifs at * <;> omega
  have length : high + splice.inserted - (low + splice.inserted) = high - low := by omega
  rw [cut_eq live, first, last, insert_eq, lowCarried, highCarried, length]
  by_cases none : splice.inserted = 0
  · rw [if_pos (.inl none), none, Nat.add_zero]
  · rw [if_neg, if_neg]
    · omega
    · rintro (empty | short)
      · exact none empty
      · split_ifs at short with kept
        · omega
        · exact kept (.inr (.inr (by omega)))

/-- The closed form of the drift of a live interval. -/
theorem drift_eq (live : interval.deleted = false) :
    interval.drift splice rule isLast =
      if interval.Vanishes splice then interval.delete
      else
        ⟨interval.startAfter splice,
          interval.stopAfter splice rule isLast - interval.startAfter splice, false⟩ := by
  have start := interval.offset_le_stop
  have swallowed : interval.Swallowed splice ↔ interval.Vanishes splice := by
    simp only [Swallowed, Vanishes, Splice.removedStop]
    omega
  simp only [drift, live, Bool.false_eq_true, if_false, swallowed]
  split_ifs with vanishes replaced
  · rfl
  -- What is replaced exactly has its new length at once.
  · obtain ⟨positive, offset, length⟩ := replaced
    have begins : interval.startAfter splice = splice.offset := by
      rw [startAfter, if_pos (by omega), offset]
    have ends : interval.stopAfter splice rule isLast = splice.offset + splice.inserted := by
      have inside : splice.offset < interval.stop := by
        unfold Interval.stop
        omega
      rw [stopAfter, if_pos (.inr inside), Splice.carry, if_pos (by unfold Interval.stop; omega)]
    rw [begins, ends, offset, Nat.add_sub_cancel_left]
  · by_cases past : splice.offset < interval.offset
    · rw [insert_cut_of_after live past, startAfter, stopAfter, if_neg (by omega),
        if_pos (.inr (by omega))]
    · by_cases takes : interval.Takes splice rule isLast
      · rw [insert_cut_of_takes live takes, startAfter, stopAfter, if_pos (by omega),
          if_pos (.inl takes)]
      · have before : interval.stop ≤ splice.offset := by
          by_contra inside
          exact takes (.inl ⟨by omega, by omega⟩)
        rw [insert_cut_of_before live before takes, startAfter, stopAfter, if_pos (by omega),
          if_neg (not_or.mpr ⟨takes, by omega⟩), ← live]
        unfold Interval.stop
        rw [Nat.add_sub_cancel_left]

theorem carry_mono {a b : Nat} (le : a ≤ b) : splice.carry a ≤ splice.carry b := by
  unfold Splice.carry
  split_ifs <;> omega

theorem startAfter_le_stopAfter :
    interval.startAfter splice ≤ interval.stopAfter splice rule isLast := by
  have start := interval.offset_le_stop
  unfold startAfter stopAfter
  split_ifs with early late
  · unfold Takes Splice.carry at *
    split_ifs <;> omega
  · exact start
  · exact carry_mono start
  · omega

theorem stopAfter_le_startAfter {other : Interval} (apart : interval.stop < other.offset) :
    interval.stopAfter splice rule isLast ≤ other.startAfter splice := by
  unfold stopAfter startAfter
  split_ifs with reaches early
  · unfold Takes at reaches
    omega
  · exact carry_mono (Nat.le_of_lt apart)
  · omega
  · unfold Splice.carry
    split_ifs <;> omega

theorem stopAfter_le (within : splice.offset + splice.removed ≤ size) (inside : interval.stop ≤ size) :
    interval.stopAfter splice rule isLast ≤ size - splice.removed + splice.inserted := by
  unfold stopAfter Splice.carry
  split_ifs <;> omega

theorem driftable_of_inside (fits : splice.Fits size) (inside : interval.stop ≤ size) :
    interval.Driftable splice rule isLast := by
  cases dead : interval.deleted with
  | true => exact .inl dead
  | false =>
    have before : interval.stop < Offset.bound := inside.trans_lt fits.size_lt
    have after : interval.stopAfter splice rule isLast < Offset.bound :=
      (stopAfter_le fits.removed_le inside).trans_lt fits.size_after_lt
    have order : interval.startAfter splice ≤ interval.stopAfter splice rule isLast :=
      startAfter_le_stopAfter
    refine .inr ⟨fits.removed_le.trans_lt fits.size_lt, .inr ⟨fun _ => before, ?_⟩⟩
    rw [drift_eq dead]
    split_ifs
    · exact ⟨(Nat.le_add_right _ _).trans_lt before, (Nat.le_add_left _ _).trans_lt before⟩
    · exact ⟨order.trans_lt after, (Nat.sub_le _ _).trans_lt after⟩

theorem driftAll?_eq {intervals : List Interval} (fits : splice.Fits size)
    (inside : ∀ interval ∈ intervals, interval.stop ≤ size) :
    driftAll? splice rule intervals = some (driftAll splice rule intervals) := by
  induction intervals with
  | nil => rfl
  | cons first rest ih =>
    obtain ⟨here, others⟩ := List.forall_mem_cons.mp inside
    have drifts : first.drift? splice rule rest.isEmpty = some _ :=
      if_pos (driftable_of_inside fits here)
    rw [driftAll?, drifts, ih others]
    rfl

/-- An interval covers the same characters as before, and the inserted ones if it takes
them. -/
theorem covers_drift (live : interval.deleted = false)
    (position : Nat) :
    (interval.drift splice rule isLast).Covers position ↔
      if position < splice.offset then interval.Covers position
      else if position < splice.offset + splice.inserted then interval.Takes splice rule isLast
      else interval.Covers (position - splice.inserted + splice.removed) := by
  have start := interval.offset_le_stop
  rw [drift_eq live]
  split_ifs with vanishes below inserted below inserted
  · simp only [Covers, delete, Bool.true_eq_false, false_and, false_iff]
    unfold Vanishes at vanishes
    omega
  · simp only [Covers, delete, Bool.true_eq_false, false_and, false_iff]
    unfold Vanishes Takes at *
    omega
  · simp only [Covers, delete, Bool.true_eq_false, false_and, false_iff]
    unfold Vanishes at vanishes
    omega
  -- In what remains the interval is kept, and each range of positions is plain arithmetic.
  all_goals
    have order : interval.startAfter splice ≤ interval.stopAfter splice rule isLast :=
      startAfter_le_stopAfter
    have limit : Interval.stop ⟨interval.startAfter splice,
        interval.stopAfter splice rule isLast - interval.startAfter splice, false⟩ =
          interval.stopAfter splice rule isLast := Nat.add_sub_of_le order
    simp only [Covers, limit, live, true_and]
    by_cases takes : interval.Takes splice rule isLast
    all_goals
      simp only [startAfter, stopAfter, Splice.carry, takes, true_or, false_or, if_true, iff_true,
        iff_false]
      unfold Takes Vanishes at *
      split_ifs <;> omega

theorem exists_mem_driftAll {P : Interval → Prop} {intervals : List Interval} :
    (∃ drifted ∈ driftAll splice rule intervals, P drifted) ↔
      ∃ front interval back, intervals = front ++ interval :: back ∧
        P (interval.drift splice rule back.isEmpty) := by
  induction intervals with
  | nil => simp [driftAll]
  | cons first rest ih =>
    simp only [driftAll, List.mem_cons, exists_eq_or_imp, ih]
    constructor
    · rintro (holds | ⟨front, interval, back, rfl, holds⟩)
      · exact ⟨[], first, rest, rfl, holds⟩
      · exact ⟨first :: front, interval, back, rfl, holds⟩
    · rintro ⟨front, interval, back, split, holds⟩
      cases front with
      | nil =>
        obtain ⟨rfl, rfl⟩ := List.cons.inj split
        exact .inl holds
      | cons other front =>
        obtain ⟨rfl, rfl⟩ := List.cons.inj split
        exact .inr ⟨front, interval, back, rfl, holds⟩

theorem bounds_drift (live : interval.deleted = false)
    (left : (interval.drift splice rule isLast).deleted = false) :
    (interval.drift splice rule isLast).offset = interval.startAfter splice ∧
      (interval.drift splice rule isLast).stop = interval.stopAfter splice rule isLast := by
  rw [drift_eq live] at left ⊢
  split_ifs at left ⊢
  · cases left
  · exact ⟨rfl, Nat.add_sub_of_le startAfter_le_stopAfter⟩

theorem pairwise_driftAll {intervals : List Interval}
    (live : ∀ interval ∈ intervals, interval.deleted = false)
    (apart : intervals.Pairwise fun left right => left.stop < right.offset) :
    (driftAll splice rule intervals).Pairwise fun left right =>
      left.deleted = false → right.deleted = false → left.stop ≤ right.offset := by
  induction intervals with
  | nil => exact .nil
  | cons first rest ih =>
    obtain ⟨firstLive, restLive⟩ := List.forall_mem_cons.mp live
    obtain ⟨after, restApart⟩ := List.pairwise_cons.mp apart
    refine List.pairwise_cons.mpr ⟨fun drifted member left right => ?_, ih restLive restApart⟩
    obtain ⟨front, other, back, split, rfl⟩ :=
      exists_mem_driftAll.mp ⟨drifted, member, (rfl : drifted = drifted)⟩
    have otherMember : other ∈ rest := by simp [split]
    rw [(bounds_drift firstLive left).2,
      (bounds_drift (restLive other otherMember) right).1]
    exact stopAfter_le_startAfter (after other otherMember)

end Interval

end TextProjection
