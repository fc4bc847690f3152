import TextProjection.Layout.Image
import TextProjection.Proofs.Interval.Covers

/-! The maximal runs of the positions that have a property, in order. A list of runs is
determined by the property, and what regions leave of a range is such a list.
-/

set_option autoImplicit false

namespace TextProjection

/-- The regions are the maximal runs of positions with the property, from `low` to `stop`. -/
def Runs (property : Nat → Prop) (low stop : Nat) : List Region → Prop
  | [] => ∀ position, low ≤ position → position < stop → ¬ property position
  | run :: rest =>
    (0 < run.length ∧ low ≤ run.offset ∧ run.stop ≤ stop) ∧
      (∀ position, low ≤ position → position < run.offset → ¬ property position) ∧
      (∀ position, run.Covers position → property position) ∧
      (run.stop < stop → ¬ property run.stop) ∧ Runs property run.stop stop rest

namespace Runs

variable {property other : Nat → Prop} {low stop : Nat} {list rest : List Region} {run : Region}

theorem covers_offset (nonempty : 0 < run.length) : run.Covers run.offset :=
  ⟨Nat.le_refl _, Nat.lt_add_of_pos_right nonempty⟩

/-- There is one list of runs only. -/
theorem unique {left right : List Region} (first : Runs property low stop left)
    (second : Runs property low stop right) : left = right := by
  induction left generalizing low right with
  | nil =>
    cases right with
    | nil => rfl
    | cons run rest =>
      obtain ⟨⟨nonempty, low_le, le_stop⟩, -, all, -⟩ := second
      have inside := (covers_offset nonempty).2
      exact absurd (all _ (covers_offset nonempty)) (first _ low_le (by omega))
  | cons run rest ih =>
    obtain ⟨⟨nonempty, low_le, le_stop⟩, before, all, ends, tail⟩ := first
    cases right with
    | nil =>
      have inside := (covers_offset nonempty).2
      exact absurd (all _ (covers_offset nonempty)) (second _ low_le (by omega))
    | cons run' rest' =>
      obtain ⟨⟨nonempty', low_le', le_stop'⟩, before', all', ends', tail'⟩ := second
      -- The run that starts first would have the other list miss its first position, and the one
      -- that ends first could be extended.
      have start : run.offset = run'.offset := by
        rcases Nat.lt_trichotomy run.offset run'.offset with early | same | late
        · exact absurd (all _ (covers_offset nonempty)) (before' _ low_le early)
        · exact same
        · exact absurd (all' _ (covers_offset nonempty')) (before _ low_le' late)
      have limit : run.stop = run'.stop := by
        unfold Region.stop at *
        rcases Nat.lt_trichotomy run.stop run'.stop with early | same | late
        · exact absurd (all' run.stop ⟨by unfold Region.stop; omega, early⟩)
            (ends (by unfold Region.stop at *; omega))
        · exact same
        · exact absurd (all run'.stop ⟨by unfold Region.stop; omega, late⟩)
            (ends' (by unfold Region.stop at *; omega))
      have same : run = run' := by
        cases run
        cases run'
        simp only [Region.stop, Region.mk.injEq] at *
        omega
      subst same
      rw [ih tail tail']

theorem congr (runs : Runs property low stop list)
    (same : ∀ position, low ≤ position → position < stop → (property position ↔ other position)) :
    Runs other low stop list := by
  induction list generalizing low with
  | nil =>
    exact fun position above below => mt (same position above below).mpr (runs position above below)
  | cons run rest ih =>
    obtain ⟨⟨nonempty, low_le, le_stop⟩, before, all, ends, tail⟩ := runs
    have start := (covers_offset nonempty).2
    refine ⟨⟨nonempty, low_le, le_stop⟩, fun position above below => ?_,
      fun position covers => ?_, fun inside => ?_, ih tail fun position above below => ?_⟩
    · exact mt (same position above (by omega)).mpr (before position above below)
    · exact (same position (Nat.le_trans low_le covers.1) (Nat.lt_of_lt_of_le covers.2 le_stop)).mp
        (all position covers)
    · exact mt (same run.stop (by omega) inside).mpr (ends inside)
    · exact same position (by omega) below

theorem lower {start : Nat} (runs : Runs property low stop list) (le : start ≤ low)
    (none : ∀ position, start ≤ position → position < low → ¬ property position) :
    Runs property start stop list := by
  cases list with
  | nil =>
    intro position above below
    by_cases early : position < low
    · exact none position above early
    · exact runs position (Nat.le_of_not_lt early) below
  | cons run rest =>
    obtain ⟨⟨nonempty, low_le, le_stop⟩, before, tail⟩ := runs
    refine ⟨⟨nonempty, Nat.le_trans le low_le, le_stop⟩, fun position above below => ?_, tail⟩
    by_cases early : position < low
    · exact none position above early
    · exact before position (Nat.le_of_not_lt early) below

theorem tail (runs : Runs property low stop (run :: rest)) :
    Runs (fun position => property position ∧ ¬ run.Covers position) low stop rest := by
  obtain ⟨⟨nonempty, low_le, le_stop⟩, before, all, ends, tail⟩ := runs
  have start := (covers_offset nonempty).2
  -- Past the run it is the same property; up to there nothing is left of it.
  have past : Runs (fun position => property position ∧ ¬ run.Covers position) run.stop stop rest :=
    tail.congr fun position above _ =>
      (and_iff_left fun covers : run.Covers position => Nat.not_le.mpr covers.2 above).symm
  refine past.lower (by omega) fun position above below => ?_
  rintro ⟨holds, outside⟩
  by_cases early : position < run.offset
  · exact before position above early holds
  · exact outside ⟨Nat.le_of_not_lt early, below⟩

theorem inside (runs : Runs property low stop list) :
    ∀ run ∈ list, 0 < run.length ∧ low ≤ run.offset ∧ run.stop ≤ stop := by
  induction list generalizing low with
  | nil => simp
  | cons run rest ih =>
    obtain ⟨⟨nonempty, low_le, le_stop⟩, -, -, -, tail⟩ := runs
    refine List.forall_mem_cons.mpr ⟨⟨nonempty, low_le, le_stop⟩, fun other member => ?_⟩
    have := ih tail other member
    have := (covers_offset nonempty).2
    omega

theorem covered (runs : Runs property low stop list) {position : Nat} (above : low ≤ position)
    (below : position < stop) : property position ↔ ∃ run ∈ list, run.Covers position := by
  induction list generalizing low with
  | nil => exact iff_of_false (runs position above below) (by simp)
  | cons run rest ih =>
    obtain ⟨-, before, all, -, tail⟩ := runs
    rw [List.exists_mem_cons_iff]
    by_cases past : run.stop ≤ position
    · rw [ih tail past]
      exact (or_iff_right fun covers : run.Covers position => Nat.not_le.mpr covers.2 past).symm
    · by_cases early : position < run.offset
      · refine iff_of_false (before position above early) ?_
        rintro (covers | ⟨other, member, covers⟩)
        · exact Nat.not_le.mpr early covers.1
        · have := (tail.inside other member).2.1
          have := covers.1
          omega
      · have covers : run.Covers position := ⟨Nat.le_of_not_lt early, Nat.lt_of_not_le past⟩
        exact iff_of_true (all position covers) (.inl covers)

theorem exists_first (runs : Runs property low stop list) (room : low < stop) (holds : property low) :
    ∃ run, list.head? = some run ∧ run.offset = low := by
  cases list with
  | nil => exact absurd holds (runs low (Nat.le_refl _) room)
  | cons run rest =>
    obtain ⟨⟨-, low_le, -⟩, before, -⟩ := runs
    refine ⟨run, rfl, Nat.le_antisymm (Nat.le_of_not_lt fun late => ?_) low_le⟩
    exact before low (Nat.le_refl _) late holds

theorem apart (runs : Runs property low stop list) :
    list.Pairwise fun left right => left.stop < right.offset := by
  induction list generalizing low with
  | nil => exact .nil
  | cons run rest ih =>
    obtain ⟨-, -, -, ends, tail⟩ := runs
    refine List.pairwise_cons.mpr ⟨fun other member => ?_, ih tail⟩
    obtain ⟨nonempty, after, le_stop⟩ := tail.inside other member
    have first := covers_offset nonempty
    have room : other.offset < stop := Nat.lt_of_lt_of_le first.2 le_stop
    -- A run that starts where another one ends would have been part of it.
    refine Nat.lt_of_le_of_ne after fun touches => ?_
    have holds : property other.offset := (tail.covered after room).mpr ⟨other, member, first⟩
    rw [← touches] at holds room
    exact ends room holds

theorem exists_last (runs : Runs property low stop list) (room : low < stop)
    (holds : property (stop - 1)) : ∃ run, list.getLast? = some run ∧ run.stop = stop := by
  obtain ⟨run, member, covers⟩ := (runs.covered (by omega) (by omega)).mp holds
  have limit : run.stop = stop := by
    have := (runs.inside run member).2.2
    have := covers.2
    omega
  obtain ⟨front, back, rfl⟩ := List.append_of_mem member
  cases back with
  | nil => exact ⟨run, by simp, limit⟩
  -- Another run would lie past the range.
  | cons other rest =>
    have after := List.rel_of_pairwise_cons (List.pairwise_append.mp runs.apart).2.1
      (List.mem_cons_self ..)
    obtain ⟨nonempty, -, inside⟩ := runs.inside other (by simp)
    have := (covers_offset nonempty).2
    omega

theorem of_apart (inside : ∀ run ∈ list, 0 < run.length ∧ low ≤ run.offset ∧ run.stop ≤ stop)
    (apart : list.Pairwise fun left right => left.stop < right.offset)
    (covered : ∀ position, low ≤ position → position < stop →
      (property position ↔ ∃ run ∈ list, run.Covers position)) :
    Runs property low stop list := by
  induction list generalizing low with
  | nil => exact fun position above below => by simp [covered position above below]
  | cons run rest ih =>
    obtain ⟨⟨nonempty, low_le, le_stop⟩, restInside⟩ := List.forall_mem_cons.mp inside
    obtain ⟨after, restApart⟩ := List.pairwise_cons.mp apart
    have start := (covers_offset nonempty).2
    have unheld (position : Nat) (early : position ≤ run.stop) :
        ¬ ∃ other ∈ rest, other.Covers position := by
      rintro ⟨other, member, covers⟩
      have := after other member
      have := covers.1
      omega
    have tail : Runs property run.stop stop rest :=
      ih (fun other member =>
          ⟨(restInside other member).1, Nat.le_of_lt (after other member), (restInside other member).2.2⟩)
        restApart fun position above below => by
          rw [covered position (by omega) below, List.exists_mem_cons_iff]
          exact or_iff_right fun covers : run.Covers position => Nat.not_le.mpr covers.2 above
    refine ⟨⟨nonempty, low_le, le_stop⟩, fun position above below => ?_, fun position covers => ?_,
      fun inner => ?_, tail⟩
    · rw [covered position above (by omega), List.exists_mem_cons_iff]
      rintro (covers | other)
      · exact Nat.not_le.mpr below covers.1
      · exact unheld position (by omega) other
    · have := covers.1
      have := covers.2
      exact (covered position (by omega) (by omega)).mpr ⟨run, List.mem_cons_self .., covers⟩
    · rw [covered run.stop (by omega) inner, List.exists_mem_cons_iff]
      rintro (covers | other)
      · exact Nat.lt_irrefl _ covers.2
      · exact unheld run.stop (Nat.le_refl _) other

theorem length_le (runs : Runs property low stop list) : list.length ≤ stop - low := by
  induction list generalizing low with
  | nil => simp
  | cons run rest ih =>
    obtain ⟨⟨nonempty, low_le, le_stop⟩, -, -, -, tail⟩ := runs
    have inside := (covers_offset nonempty).2
    have shorter := ih tail
    rw [List.length_cons]
    omega

end Runs

namespace Layout

/-- What regions in order leave of a range are the runs of positions that none of them
covers. -/
theorem runs_gaps {regions : List Region} {cursor stop : Nat}
    (apart : regions.Pairwise fun left right => left.stop ≤ right.offset)
    (inside : ∀ region ∈ regions,
      0 < region.length ∧ cursor ≤ region.offset ∧ region.stop ≤ stop) :
    Runs (fun position => ∀ region ∈ regions, ¬ region.Covers position) cursor stop
      (gaps cursor stop regions) := by
  induction regions generalizing cursor with
  | nil =>
    rw [gaps]
    split
    · next room =>
      have limit : (Region.ofBounds cursor stop).stop = stop :=
        Nat.add_sub_of_le (Nat.le_of_lt room)
      refine ⟨⟨Nat.sub_pos_of_lt room, Nat.le_refl _, limit.le⟩, fun position above below => ?_,
        by simp, fun short => ?_, fun position above below => ?_⟩
      · exact absurd above (Nat.not_le.mpr below)
      · omega
      · omega
    · intro position above below
      omega
  | cons region rest ih =>
    obtain ⟨after, tailApart⟩ := List.pairwise_cons.mp apart
    obtain ⟨⟨nonempty, low, high⟩, tailInside⟩ := List.forall_mem_cons.mp inside
    have start := (Runs.covers_offset nonempty).2
    -- Past the first region, the others alone decide; it is then put before their gaps.
    have tail : Runs _ region.stop stop (gaps region.stop stop rest) :=
      ih tailApart fun other member =>
        ⟨(tailInside other member).1, after other member, (tailInside other member).2.2⟩
    have past : Runs (fun position => ∀ other ∈ region :: rest, ¬ other.Covers position)
        region.stop stop (gaps region.stop stop rest) :=
      tail.congr fun position above _ => by
        rw [List.forall_mem_cons]
        exact (and_iff_right fun covers : region.Covers position =>
          Nat.not_le.mpr covers.2 above).symm
    have remaining := past.lower (Nat.le_of_lt start) fun position above below all =>
      all region (List.mem_cons_self ..) ⟨above, below⟩
    rw [gaps]
    split
    · next early =>
      have limit : (Region.ofBounds cursor region.offset).stop = region.offset :=
        Nat.add_sub_of_le low
      refine ⟨⟨Nat.sub_pos_of_lt early, Nat.le_refl _, by omega⟩, fun position above below => ?_,
        fun position covers other member found => ?_, fun _ all => ?_, limit.symm ▸ remaining⟩
      · exact absurd above (Nat.not_le.mpr below)
      · have below := covers.2
        have above := found.1
        rcases List.mem_cons.mp member with rfl | member
        · omega
        · have := after other member
          omega
      · rw [limit] at all
        exact all region (List.mem_cons_self ..) (Runs.covers_offset nonempty)
    · next late =>
      exact remaining.lower low fun position above below => by omega

theorem length_gaps_le (cursor stop : Nat) (regions : List Region) :
    (gaps cursor stop regions).length ≤ regions.length + 1 := by
  induction regions generalizing cursor with
  | nil =>
    rw [gaps]
    split <;> simp
  | cons region rest ih =>
    have tail := ih region.stop
    rw [gaps]
    split <;> simp only [List.length_cons] <;> omega

end Layout

end TextProjection
