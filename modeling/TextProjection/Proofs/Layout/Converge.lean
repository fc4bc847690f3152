import TextProjection.Proofs.Layout.Condense
import TextProjection.Proofs.Projection.Follow

/-! Fragments that show the same outside of an edit, and have room for what the edit brings, are the
same once they have followed it, however much of the removed text each of them showed.
-/

set_option autoImplicit false

namespace TextProjection.Layout

theorem normalForm_of_blank {layout : Layout} {anchor : Nat} (some : layout.pairs ≠ [])
    (blank : ∀ pair ∈ layout.pairs, pair.fragment.deleted = false →
      pair.fragment = ⟨anchor, 0, false⟩) :
    layout.normalForm anchor = vacant anchor := by
  have silent : layout.Silent := silent_iff.mpr fun pair member => by
    cases live : pair.fragment.deleted with
    | true => simp [Pair.showsText, Pair.deleted, live]
    | false => simp [Pair.showsText, blank pair member live]
  cases found : layout.pairs.find? (!·.deleted) with
  | none => exact normalForm_of_deleted some (by simpa using List.find?_eq_none.mp found) anchor
  | some pair =>
    have live : pair.fragment.deleted = false := by
      simpa [Pair.deleted] using List.find?_some found
    rw [normalForm_of_first silent found, blank pair (List.mem_of_find?_eq_some found) live]

namespace WellFormed

variable {layout left right : Layout} {size : Nat} {splice : Splice} {edit : Edit} {text : Text}

theorem within_of_admits (wf : layout.WellFormed size) {region : Region}
    (admits : layout.Admits region.offset)
    (within : ∀ position, layout.Shows position → region.Covers position) {pair : Pair}
    (member : pair ∈ layout.pairs) :
    region.offset ≤ pair.fragment.offset ∧ pair.fragment.stop ≤ region.stop := by
  obtain ⟨front, back, split⟩ := List.append_of_mem member
  have order := pair.fragment.offset_le_stop
  rcases Nat.eq_zero_or_pos pair.fragment.length with empty | solid
  · -- An empty fragment is alone, and it admits characters only where it stands.
    obtain ⟨rfl, rfl⟩ := wf.alone split empty
    have here : pair.fragment.stop = region.offset := by
      rcases admits with ⟨other, found, -, start, stop⟩ | ⟨last, found, limit⟩
      · obtain rfl : other = pair := by simpa [split] using found
        unfold Interval.stop at stop
        omega
      · obtain rfl : pair = last := by simpa [split] using found
        exact limit
    unfold Interval.stop Region.stop at *
    omega
  · have first := within pair.fragment.offset (wf.shows_of_split split (Nat.le_refl _)
      (Nat.lt_add_of_pos_right solid))
    have last := within (pair.fragment.stop - 1) (wf.shows_of_split split
      (by unfold Interval.stop; omega) (by unfold Interval.stop; omega))
    have stop := last.2
    exact ⟨first.1, by omega⟩

theorem normalForm_of_removed (wf : layout.WellFormed size)
    (none : splice.inserted = 0) (some : layout.pairs ≠ [])
    (within : ∀ pair ∈ layout.pairs, splice.offset ≤ pair.fragment.offset ∧
      pair.fragment.stop ≤ splice.offset + splice.removed) :
    (layout.drift splice .lastGrows).normalForm splice.offset = vacant splice.offset := by
  have length : (layout.drift splice .lastGrows).pairs.length = layout.pairs.length := by
    simpa [Interval.length_driftAll] using congrArg List.length
      (layout.map_fragment_drift splice .lastGrows)
  refine normalForm_of_blank (fun gone => some ?_) fun pair member live => ?_
  · rw [gone] at length
    exact List.eq_nil_of_length_eq_zero length.symm
  · obtain ⟨front, original, back, split, same⟩ :=
      (exists_mem_drift (pair.fragment = ·)).mp ⟨pair, member, rfl⟩
    have found : original ∈ layout.pairs := member_of_split split
    have order := original.fragment.offset_le_stop
    obtain ⟨start, stop⟩ := within original found
    rw [same, Interval.drift_eq (wf.live original found)] at live ⊢
    split_ifs at live ⊢
    · cases live
    · have low : original.fragment.startAfter splice = splice.offset := by
        unfold Interval.startAfter Splice.carry
        split_ifs <;> omega
      have high : original.fragment.stopAfter splice .lastGrows back.isEmpty = splice.offset := by
        unfold Interval.stopAfter Splice.carry Interval.Takes
        split_ifs <;> omega
      rw [low, high, Nat.sub_self]

/-- What was shown of the removed characters makes no difference in the end. -/
theorem follow_congr (first : left.WellFormed text.length) (second : right.WellFormed text.length)
    (inside : edit.region.Inside text.length)
    (admits : left.Admits edit.region.offset) (admits' : right.Admits edit.region.offset)
    (outside : ∀ position, ¬ edit.region.Covers position →
      (left.Shows position ↔ right.Shows position)) :
    (left.drift edit.splice .lastGrows).normalForm edit.region.offset =
      (right.drift edit.splice .lastGrows).normalForm edit.region.offset := by
  obtain ⟨leftAfter, leftShows⟩ := first.follow inside
  obtain ⟨rightAfter, rightShows⟩ := second.follow inside
  have same (position : Nat) : left.ShowsAfter edit position ↔ right.ShowsAfter edit position := by
    unfold ShowsAfter
    split_ifs with below inserted
    · exact outside position fun covers => Nat.not_le.mpr below covers.1
    · exact iff_of_true admits admits'
    · exact outside _ fun covers => by
        have stop := covers.2
        unfold Region.stop at stop
        omega
  by_cases shown : ∃ position, left.ShowsAfter edit position
  · obtain ⟨position, shown⟩ := shown
    exact eq_of_shows leftAfter rightAfter
      (fun other => (leftShows other).trans ((same other).trans (rightShows other).symm))
      ((leftShows position).mpr shown)
  · -- Nothing is left: no text was inserted, and each of the two was cut down to the same place.
    have nothing : edit.text.length = 0 := by
      by_contra some
      refine shown ⟨edit.region.offset, (leftShows _).mp ?_⟩
      exact (shows_inserted leftShows (Nat.pos_of_ne_zero some)).mpr admits
    have blank {layout : Layout} (wf : layout.WellFormed text.length)
        (hidden : ¬ ∃ position, layout.ShowsAfter edit position)
        (admits : layout.Admits edit.region.offset) :
        (layout.drift edit.splice .lastGrows).normalForm edit.region.offset =
          vacant edit.region.offset := by
      have within (position : Nat) (shows : layout.Shows position) : edit.region.Covers position := by
        by_contra uncovered
        rcases Nat.lt_or_ge position edit.region.offset with below | above
        · exact hidden ⟨position, by rwa [ShowsAfter, if_pos below]⟩
        · have past : edit.region.stop ≤ position :=
            Nat.le_of_not_lt fun stop => uncovered ⟨above, stop⟩
          unfold Region.stop at past
          have carried : position - edit.region.length - edit.text.length + edit.region.length =
              position := by omega
          refine hidden ⟨position - edit.region.length, ?_⟩
          rwa [ShowsAfter, if_neg (by omega), if_neg (by omega), carried]
      have some : layout.pairs ≠ [] := by
        intro none
        rcases admits with shows | ⟨last, found, -⟩
        · rw [Shows, none] at shows
          exact shownBy_nil _ shows
        · simp [none] at found
      exact wf.normalForm_of_removed nothing some fun pair member =>
        wf.within_of_admits admits within member
    have hidden : ¬ ∃ position, right.ShowsAfter edit position := by
      rintro ⟨position, other⟩
      exact shown ⟨position, (same position).mpr other⟩
    rw [blank first shown admits, blank second hidden admits']

end WellFormed

end TextProjection.Layout
