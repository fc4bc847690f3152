import TextProjection.Proofs.Interval.Drift
import TextProjection.Proofs.Layout.Image
import TextProjection.Proofs.Layout.Normal

/-! A well-formed layout after its fragments drifted. They are in order again, and of the
inserted characters it shows all or none, as it admitted characters there before.
-/

set_option autoImplicit false

namespace TextProjection

namespace Layout.WellFormed

variable {layout : Layout} {size : Nat} {splice : Splice}

theorem exists_takes (wf : layout.WellFormed size) :
    (∃ front pair back, layout.pairs = front ++ pair :: back ∧
      pair.fragment.Takes splice .lastGrows back.isEmpty) ↔ layout.Admits splice.offset := by
  constructor
  · rintro ⟨front, pair, back, split, ⟨start, stop⟩ | ⟨touches, empty | last⟩⟩
    · exact .inl (wf.shows_of_split split start stop)
    · obtain ⟨rfl, rfl⟩ := wf.alone split empty
      exact .inr ⟨pair, by simp [split], touches⟩
    · obtain rfl : back = [] := by simpa using last.1
      exact .inr ⟨pair, by simp [split], touches⟩
  · rintro (⟨pair, member, -, start, stop⟩ | ⟨last, found, touches⟩)
    · obtain ⟨front, back, split⟩ := List.append_of_mem member
      exact ⟨front, pair, back, split, .inl ⟨start, stop⟩⟩
    · exact ⟨layout.pairs.dropLast, last, [], (List.dropLast_append_getLast? last found).symm,
        .inr ⟨touches, .inr ⟨rfl, rfl⟩⟩⟩

theorem exists_mem_drift (P : Interval → Prop) :
    (∃ pair ∈ (layout.drift splice .lastGrows).pairs, P pair.fragment) ↔
      ∃ front pair back, layout.pairs = front ++ pair :: back ∧
        P (pair.fragment.drift splice .lastGrows back.isEmpty) := by
  have view : (∃ pair ∈ (layout.drift splice .lastGrows).pairs, P pair.fragment) ↔
      ∃ drifted ∈ (layout.drift splice .lastGrows).pairs.map (·.fragment), P drifted := by
    simp
  rw [view, map_fragment_drift, Interval.exists_mem_driftAll]
  constructor
  · rintro ⟨front, interval, back, split, holds⟩
    obtain ⟨left, right, parts, rfl, mapped⟩ := List.map_eq_append_iff.mp split
    obtain ⟨pair, others, rfl, rfl, rfl⟩ := List.map_eq_cons_iff.mp mapped
    exact ⟨left, pair, others, parts, by simpa using holds⟩
  · rintro ⟨front, pair, back, split, holds⟩
    exact ⟨front.map (·.fragment), pair.fragment, back.map (·.fragment), by simp [split],
      by simpa using holds⟩

/-- What is shown after the drift. -/
theorem shows_drift (wf : layout.WellFormed size) (position : Nat) :
    (layout.drift splice .lastGrows).Shows position ↔
      if position < splice.offset then layout.Shows position
      else if position < splice.offset + splice.inserted then layout.Admits splice.offset
      else layout.Shows (position - splice.inserted + splice.removed) := by
  have shown (other : Nat) : layout.Shows other ↔
      ∃ front pair back, layout.pairs = front ++ pair :: back ∧ pair.fragment.Covers other := by
    constructor
    · rintro ⟨pair, member, covers⟩
      obtain ⟨front, back, split⟩ := List.append_of_mem member
      exact ⟨front, pair, back, split, covers⟩
    · rintro ⟨front, pair, back, split, covers⟩
      exact ⟨pair, member_of_split split, covers⟩
  -- Each pair covers the same as before, and the inserted characters if it takes them.
  have each (front back : List Pair) (pair : Pair) (split : layout.pairs = front ++ pair :: back) :
      (pair.fragment.drift splice .lastGrows back.isEmpty).Covers position ↔ _ :=
    Interval.covers_drift (wf.live pair (member_of_split split)) position
  rw [Shows, ShownBy, exists_mem_drift (·.Covers position)]
  split_ifs with below inserted
  · rw [shown]
    exact exists_congr fun front => exists_congr fun pair => exists_congr fun back =>
      and_congr_right fun split => by rw [each front back pair split, if_pos below]
  · rw [← wf.exists_takes]
    exact exists_congr fun front => exists_congr fun pair => exists_congr fun back =>
      and_congr_right fun split => by
        rw [each front back pair split, if_neg below, if_pos inserted]
  · rw [shown]
    exact exists_congr fun front => exists_congr fun pair => exists_congr fun back =>
      and_congr_right fun split => by
        rw [each front back pair split, if_neg below, if_neg inserted]

theorem drift?_eq (wf : layout.WellFormed size) (fits : splice.Fits size) (rule : EndRule) :
    layout.drift? splice rule = some (layout.drift splice rule) := by
  rw [drift?, Interval.driftAll?_eq fits (List.forall_mem_map.mpr wf.inside)]
  rfl

/-- The normal form after the drift is well-formed for the spliced text. -/
theorem drift_normalForm (wf : layout.WellFormed size)
    (within : splice.offset + splice.removed ≤ size) :
    ((layout.drift splice .lastGrows).normalForm splice.offset).WellFormed
        (size - splice.removed + splice.inserted) ∧
      ∀ position, ((layout.drift splice .lastGrows).normalForm splice.offset).Shows position ↔
        if position < splice.offset then layout.Shows position
        else if position < splice.offset + splice.inserted then layout.Admits splice.offset
        else layout.Shows (position - splice.inserted + splice.removed) := by
  have member {front back : List Pair} {pair : Pair}
      (split : layout.pairs = front ++ pair :: back) : pair ∈ layout.pairs := member_of_split split
  have inside : ∀ pair ∈ (layout.drift splice .lastGrows).pairs, pair.fragment.deleted = false →
      pair.fragment.stop ≤ size - splice.removed + splice.inserted := by
    intro pair found live
    obtain ⟨front, original, back, split, same⟩ :=
      (exists_mem_drift (pair.fragment = ·)).mp ⟨pair, found, rfl⟩
    rw [same] at live ⊢
    rw [(Interval.bounds_drift (wf.live _ (member split)) live).2]
    exact Interval.stopAfter_le within (wf.inside _ (member split))
  have ordered : Ordered ((layout.drift splice .lastGrows).pairs.filter Pair.showsText) := by
    have shows (pair : Pair) (text : pair.showsText = true) : pair.fragment.deleted = false := by
      simp only [Pair.showsText, Pair.deleted, Bool.and_eq_true, Bool.not_eq_true'] at text
      exact text.1
    -- Deleted fragments may lie anywhere, so the order is one of the live fragments.
    have pairwise : (layout.drift splice .lastGrows).pairs.Pairwise fun left right =>
        left.fragment.deleted = false → right.fragment.deleted = false →
          left.fragment.stop ≤ right.fragment.offset := by
      have drifted : (Interval.driftAll splice .lastGrows (layout.pairs.map (·.fragment))).Pairwise _ :=
        Interval.pairwise_driftAll (List.forall_mem_map.mpr wf.live) (List.pairwise_map.mpr wf.apart)
      rw [← map_fragment_drift, List.pairwise_map] at drifted
      exact drifted
    refine ⟨fun pair found => shows pair (List.mem_filter.mp found).2, ?_⟩
    refine (pairwise.filter _).imp_of_mem fun left right order => ?_
    exact order (shows _ (List.mem_filter.mp left).2) (shows _ (List.mem_filter.mp right).2)
  have anchored : splice.offset ≤ size - splice.removed + splice.inserted := by omega
  obtain ⟨normal, same⟩ := normalForm_spec ordered inside anchored
  exact ⟨normal, fun position => (same position).trans (wf.shows_drift position)⟩

end Layout.WellFormed

end TextProjection
