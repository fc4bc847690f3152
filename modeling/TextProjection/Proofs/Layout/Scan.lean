import TextProjection.Proofs.Layout.Meeting

/-! The search for the fragments that a region meets, against a look at all of them with exact ends.
Among fragments without a fault the search finds what a look at all of them finds, unless it has to look
at an end that is no word. Then it stops and finds nothing.
-/

set_option autoImplicit false

namespace TextProjection

/-- The interval and the region share a position. One that is empty stands at its offset, which has to
be a position of the other one, or its offset if both are empty. -/
def Interval.Intersects (interval : Interval) (region : Region) : Prop :=
  if interval.length = 0 then
    if region.length = 0 then interval.offset = region.offset else region.Covers interval.offset
  else if region.length = 0 then interval.offset ≤ region.offset ∧ region.offset < interval.stop
  else ∃ position, (interval.offset ≤ position ∧ position < interval.stop) ∧ region.Covers position

theorem Interval.intersects_iff {interval : Interval} {region : Region} :
    interval.Intersects region ↔ interval.Meets region := by
  have limit : interval.stop = interval.offset + interval.length := rfl
  have regionLimit : region.stop = region.offset + region.length := rfl
  unfold Intersects Meets Region.Covers
  simp only [Nat.pos_iff_ne_zero, ne_eq, ite_not]
  by_cases empty : interval.length = 0
  · split_ifs <;> omega
  · by_cases point : region.length = 0
    · simp only [empty, point, if_true, if_false]
    · simp only [empty, point, if_false]
      constructor
      · rintro ⟨position, covered, covers⟩
        omega
      · intro meets
        exact ⟨max interval.offset region.offset, by omega, by omega⟩

instance (interval : Interval) (region : Region) : Decidable (interval.Intersects region) :=
  decidable_of_iff (interval.Meets region) Interval.intersects_iff.symm

namespace Layout

variable {layout : Layout} {region : Region} {pairs : List Pair}

def scan (layout : Layout) (region : Region) : List Pair :=
  layout.pairs.filter (·.fragment.Intersects region)

theorem scan_eq (layout : Layout) (region : Region) :
    layout.scan region = layout.pairs.filter (·.fragment.Meets region) :=
  List.filter_congr fun _ _ => decide_eq_decide.mpr Interval.intersects_iff

/-- The check looks at neighbours only, but without a fault all fragments are in order. -/
theorem ordered_of_faultFrom? {index start : Nat} (checked : faultFrom? index start pairs = none) :
    Ordered pairs := by
  induction pairs generalizing index start with
  | nil => exact ⟨by simp, .nil⟩
  | cons pair rest ih =>
    unfold faultFrom? at checked
    split_ifs at checked with dead _ _ late
    obtain ⟨live, -⟩ : pair.deleted = false ∧ pair.segment.deleted = false := by simpa using dead
    have tail := ih checked
    refine ordered_cons.mpr ⟨live, ?_, tail⟩
    cases rest with
    | nil => exact fun _ member => absurd member List.not_mem_nil
    | cons next others =>
      have near : pair.fragment.stop ≤ next.fragment.offset := by simpa using late
      obtain ⟨-, after, -⟩ := ordered_cons.mp tail
      refine List.forall_mem_cons.mpr ⟨near, fun other member => ?_⟩
      exact (near.trans next.fragment.offset_le_stop).trans (after other member)

/-- Whatever is found among fragments without a fault is all that intersects the region, in order.
Nothing is found exactly if there are fragments at all and an end has to be looked at that is no word:
that of the region, or that of a fragment which starts before the region ends or where it starts. -/
theorem found_eq_scan (checked : layout.fault? = none) (region : Region) :
    (∀ found, layout.meeting? region = some found → found = layout.scan region) ∧
      (layout.meeting? region = none ↔ layout.pairs ≠ [] ∧
        (Offset.bound ≤ region.stop ∨ ∃ pair ∈ layout.pairs, pair.fragment.Overruns region)) := by
  have ordered : Ordered layout.pairs := ordered_of_faultFrom? checked
  by_cases none : layout.pairs = []
  · have all : layout.meeting? region = some [] := by simp [meeting?, none, meetingAmong?]
    simp [all, none, scan]
  · rcases Nat.lt_or_ge region.stop Offset.bound with word | far
    · rw [meeting?_eq ordered word, scan_eq]
      split_ifs with overruns
      · simp [none, overruns]
      · simp [overruns, Nat.not_le.mpr word]
    · simp [meeting?_of_far ordered none (Nat.not_lt.mpr far), none, far]

def touching : Layout :=
  ⟨[⟨⟨2, 0, false⟩, ⟨0, 0, false⟩⟩, ⟨⟨2, 3, false⟩, ⟨0, 3, false⟩⟩, ⟨⟨5, 0, false⟩, ⟨3, 0, false⟩⟩,
    ⟨⟨5, 2, false⟩, ⟨3, 2, false⟩⟩, ⟨⟨7, 0, false⟩, ⟨5, 0, false⟩⟩]⟩

theorem found_eq_scan_touching :
    touching.fault? = none ∧ touching.meeting? ⟨5, 0⟩ = some (touching.scan ⟨5, 0⟩) ∧
      touching.scan ⟨5, 0⟩ = (touching.pairs.drop 2).take 2 := by
  have checked : touching.fault? = none := by decide
  have answers : touching.meeting? ⟨5, 0⟩ = some ((touching.pairs.drop 2).take 2) := by decide
  obtain ⟨found, -⟩ := found_eq_scan checked ⟨5, 0⟩
  have same := found _ answers
  exact ⟨checked, same ▸ answers, same.symm⟩

/-- A region that reaches past the last word intersects both fragments, and the search stops at its
end. -/
theorem stopped_of_past :
    twoApart.fault? = none ∧ 18446744073709551615 < Offset.bound ∧
      twoApart.scan ⟨4, 18446744073709551615⟩ = twoApart.pairs ∧
      twoApart.meeting? ⟨4, 18446744073709551615⟩ = none := by
  decide

end Layout

end TextProjection
