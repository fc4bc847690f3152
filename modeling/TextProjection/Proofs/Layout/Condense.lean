import Mathlib.Data.List.Chain
import TextProjection.Proofs.Layout.Unique
import TextProjection.Proofs.Layout.Normal

/-! The two passes of normalization come to the normal form, which is well-formed, shows the same and is
its own normal form.
-/

set_option autoImplicit false

namespace TextProjection.Layout

variable {layout : Layout} {size anchor : Nat} {pair : Pair}

theorem silent_iff : layout.Silent ↔ ∀ pair ∈ layout.pairs, pair.showsText = false := by
  constructor
  · intro silent pair member
    by_contra shown
    simp only [Pair.showsText, Pair.deleted, Bool.not_eq_false, Bool.and_eq_true, Bool.not_eq_true',
      decide_eq_true_eq] at shown
    exact silent pair.fragment.offset ⟨pair, member, shown.1, Nat.le_refl _,
      Nat.lt_add_of_pos_right shown.2⟩
  · rintro blank position ⟨pair, member, live, start, stop⟩
    have := blank pair member
    unfold Interval.stop at stop
    simp only [Pair.showsText, Pair.deleted, live, Bool.not_false, Bool.true_and,
      decide_eq_false_iff_not] at this
    omega

theorem condense_of_silent (silent : layout.Silent) :
    layout.condense = (layout.pairs.find? (!·.deleted)).toList := by
  have blank := silent_iff.mp silent
  rw [condense, showsNothing_eq_true.mpr blank, sift_true blank]
  cases layout.pairs.find? (!·.deleted) <;> rfl

theorem normalForm_of_first (silent : layout.Silent)
    (found : layout.pairs.find? (!·.deleted) = some pair) (anchor : Option Nat) :
    layout.normalForm anchor = vacant pair.fragment.offset := by
  have live : pair.fragment.deleted = false := by simpa [Pair.deleted] using List.find?_some found
  have empty : pair.fragment.length = 0 := by
    have := silent_iff.mp silent pair (List.mem_of_find?_eq_some found)
    simpa [Pair.showsText, Pair.deleted, live] using this
  have kept : layout.condense = [pair] := by rw [condense_of_silent silent, found]; rfl
  have place : pair.fragment = ⟨pair.fragment.offset, 0, false⟩ := by
    rw [← empty, ← live]
  simp only [normalForm, kept, layOut, tile, Pair.deleted, live, Bool.false_eq_true, if_false, empty]
  rw [place]
  rfl

theorem condenses_of_nil (some : layout.pairs ≠ []) (dropped : layout.condense = []) :
    layout.condenses = true := by
  rw [condenses, dropped]
  exact decide_eq_true (List.length_pos_iff.mpr some).ne

theorem normalForm_of_deleted (some : layout.pairs ≠ [])
    (dead : ∀ pair ∈ layout.pairs, pair.deleted = true) (anchor : Nat) :
    layout.normalForm anchor = vacant anchor := by
  have silent : layout.Silent := silent_iff.mpr fun pair member => by
    simp [Pair.showsText, dead pair member]
  have dropped : layout.condense = [] := by
    rw [condense_of_silent silent, List.find?_eq_none.mpr fun pair member => by simp [dead pair member]]
    rfl
  simp only [normalForm, dropped, condenses_of_nil some dropped, if_true]
  rfl

/-! The canonical form -/

theorem WellFormed.normal (wf : layout.WellFormed size) : Normal layout.pairs size :=
  ⟨wf.live, wf.apart, wf.solid, wf.inside⟩

end TextProjection.Layout
