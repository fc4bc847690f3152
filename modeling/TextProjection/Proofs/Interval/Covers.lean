import Mathlib.Data.Nat.Count
import TextProjection.Interval

/-! The positions that intervals and regions cover. -/

set_option autoImplicit false

namespace TextProjection

theorem Interval.offset_le_stop (interval : Interval) : interval.offset ≤ interval.stop :=
  Nat.le_add_right _ _

def Interval.Covers (interval : Interval) (position : Nat) : Prop :=
  interval.deleted = false ∧ interval.offset ≤ position ∧ position < interval.stop

instance (interval : Interval) : DecidablePred interval.Covers :=
  fun _ => inferInstanceAs (Decidable (_ ∧ _))

theorem Region.stop_lt_of_inside {region : Region} {size : Nat} (inside : region.Inside size)
    (fits : size < Offset.bound) : region.stop < Offset.bound :=
  Nat.lt_of_le_of_lt (Region.inside_iff.mp inside) fits

def Region.Covers (region : Region) (position : Nat) : Prop :=
  region.offset ≤ position ∧ position < region.stop

instance (region : Region) : DecidablePred region.Covers :=
  fun _ => inferInstanceAs (Decidable (_ ∧ _))

theorem Region.stop?_eq {region : Region} (fits : region.stop < Offset.bound) :
    region.stop? = some region.stop :=
  Offset.add?_eq_some_iff.mpr ⟨rfl, fits⟩

theorem Region.stop?_eq_none {region : Region} (far : ¬ region.stop < Offset.bound) :
    region.stop? = none :=
  if_neg far

theorem Region.isEmpty_eq_false {region : Region} (nonempty : 0 < region.length) :
    region.isEmpty = false :=
  beq_false_of_ne (Nat.ne_of_gt nonempty)

theorem Interval.count_covers {interval : Interval} (live : interval.deleted = false) (n : Nat) :
    Nat.count interval.Covers n = min (n - interval.offset) interval.length := by
  induction n with
  | zero => simp
  | succ n ih =>
    rw [Nat.count_succ, ih]
    split
    · next covered =>
      unfold Covers stop at covered
      omega
    · next free =>
      unfold Covers stop at free
      simp only [live, true_and] at free
      omega

end TextProjection
