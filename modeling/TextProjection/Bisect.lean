/-! Halving search for the boundary between the entries that satisfy a test and
those that do not. Where the satisfying entries all come first, the result is their
number; on any other list it is still determined, by the entries that are looked at.
-/

set_option autoImplicit false

namespace TextProjection

variable {α : Type} (test : α → Bool) (entries : List α)

def bisectWindow : Nat → Nat → Nat → Nat
  | 0, base, _ => base
  | rounds + 1, base, size =>
    if size ≤ 1 then base
    else
      let half := size / 2
      let base := if entries[base + half]?.any test then base + half else base
      bisectWindow rounds base (size - half)

def bisect : Nat :=
  -- The window loses an entry each time, so there are rounds enough.
  let last := bisectWindow test entries entries.length 0 entries.length
  if entries[last]?.any test then last + 1 else last

variable {test entries}

/-- The window closes in on any target that every comparison leaves inside it. -/
theorem bisectWindow_eq {target : Nat}
    (low : ∀ i, entries[i]?.any test = true → i ≤ target)
    (high : ∀ i, entries[i]?.any test = false → 0 < i → target < i)
    {rounds base size : Nat} (enough : size ≤ rounds + 1)
    (left : base ≤ target) (right : target < base + size) :
    bisectWindow test entries rounds base size = target := by
  induction rounds generalizing base size with
  | zero =>
    unfold bisectWindow
    omega
  | succ rounds ih =>
    unfold bisectWindow
    split
    · omega
    · cases found : entries[base + size / 2]?.any test with
      | true =>
        have := low _ found
        simp only [found, if_true]
        exact ih (by omega) (by omega) (by omega)
      | false =>
        have := high _ found (by omega)
        simp only [found, Bool.false_eq_true, if_false]
        exact ih (by omega) (by omega) (by omega)

theorem bisect_append {front back : List α} (holds : ∀ entry ∈ front, test entry = true)
    (fails : ∀ entry ∈ back, test entry = false) :
    bisect test (front ++ back) = front.length := by
  have value : ∀ i, (front ++ back)[i]?.any test = decide (i < front.length) := by
    intro i
    by_cases inside : i < front.length
    · simp [List.getElem?_append_left inside, inside, holds]
    · rw [List.getElem?_append_right (by omega)]
      cases found : back[i - front.length]? with
      | none => simp [inside]
      | some entry => simp [inside, fails entry (List.mem_of_getElem? found)]
  by_cases none : (front ++ back).length = 0
  · have empty := List.eq_nil_of_length_eq_zero none
    simp only [List.append_eq_nil_iff] at empty
    simp [empty, bisect, bisectWindow]
  · have last : bisectWindow test (front ++ back) (front ++ back).length 0
        (front ++ back).length = front.length - 1 := by
      apply bisectWindow_eq
      · intro i found
        rw [value, decide_eq_true_eq] at found
        omega
      · intro i found positive
        rw [value, decide_eq_false_iff_not] at found
        omega
      · omega
      · omega
      · simp only [List.length_append] at none ⊢
        omega
    unfold bisect
    simp only [last, value, decide_eq_true_eq]
    split <;> omega

end TextProjection
