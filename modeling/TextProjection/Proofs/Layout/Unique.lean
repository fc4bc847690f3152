import TextProjection.Proofs.Layout.Image
import TextProjection.Proofs.Layout.Runs

/-! A well-formed layout that shows something is determined by what it shows: its fragments are the
maximal runs of the shown characters, and its segments follow from them. One that shows nothing has
at most a single empty fragment, which may stand anywhere.
-/

set_option autoImplicit false

namespace TextProjection.Layout

def vacant (offset : Nat) : Layout := ⟨[⟨⟨offset, 0, false⟩, ⟨0, 0, false⟩⟩]⟩

theorem vacant_inj {offset other : Nat} (same : vacant offset = vacant other) : offset = other := by
  injection same with pairs
  simpa using pairs

def Silent (layout : Layout) : Prop := ∀ position, ¬ layout.Shows position

theorem silent_vacant (offset : Nat) : (vacant offset).Silent := by
  intro position
  simp [vacant, Shows, Interval.Covers, Interval.stop]

theorem shownBy_iff_covered {pairs : List Pair}
    (live : ∀ pair ∈ pairs, pair.fragment.deleted = false) (position : Nat) :
    ShownBy pairs position ↔
      ∃ region ∈ pairs.map (·.fragment.region), region.Covers position := by
  constructor
  · rintro ⟨pair, member, -, covers⟩
    exact ⟨_, List.mem_map_of_mem member, covers⟩
  · rintro ⟨region, member, covers⟩
    obtain ⟨pair, found, rfl⟩ := List.mem_map.mp member
    exact ⟨pair, found, live pair found, covers⟩

theorem runs_of_apart {pairs : List Pair} {low size : Nat}
    (live : ∀ pair ∈ pairs, pair.fragment.deleted = false)
    (apart : pairs.Pairwise fun left right => left.fragment.stop < right.fragment.offset)
    (solid : ∀ pair ∈ pairs, 0 < pair.fragment.length)
    (start : ∀ pair ∈ pairs, low ≤ pair.fragment.offset)
    (inside : ∀ pair ∈ pairs, pair.fragment.stop ≤ size) :
    Runs (ShownBy pairs) low size (pairs.map (·.fragment.region)) := by
  refine .of_apart (List.forall_mem_map.mpr fun pair member => ?_) (List.pairwise_map.mpr apart)
    fun position _ _ => shownBy_iff_covered live position
  exact ⟨solid pair member, start pair member, inside pair member⟩

theorem Tiles.unique {start : Nat} {left right : List Pair} (first : Tiles start left)
    (second : Tiles start right) (same : left.map (·.fragment) = right.map (·.fragment)) :
    left = right := by
  induction left generalizing start right with
  | nil => exact (List.map_eq_nil_iff.mp same.symm).symm
  | cons pair rest ih =>
    cases right with
    | nil => cases same
    | cons other others =>
      obtain ⟨segment, tail⟩ := first
      obtain ⟨segment', tail'⟩ := second
      obtain ⟨first, fragments⟩ := List.cons.inj same
      have fragment : pair.fragment = other.fragment := first
      rw [← fragment] at segment' tail'
      have equal : pair = other := by
        cases pair
        cases other
        exact congrArg₂ Pair.mk fragment (segment.trans segment'.symm)
      rw [equal, ih tail tail' fragments]

namespace WellFormed

variable {layout left right : Layout} {size : Nat} {position : Nat}

theorem of_vacant {offset : Nat} (inside : offset ≤ size) : (vacant offset).WellFormed size where
  live := by simp [Layout.vacant]
  tiled := by simp [Layout.vacant, Tiles]
  apart := List.pairwise_singleton _ _
  solid := by simp [Layout.vacant, Layout.size]
  inside := by simpa [Layout.vacant, Interval.stop] using inside

theorem eq_vacant (wf : layout.WellFormed size) {front back : List Pair} {pair : Pair}
    (split : layout.pairs = front ++ pair :: back) (empty : pair.fragment.length = 0) :
    layout = vacant pair.fragment.offset := by
  obtain ⟨rfl, rfl⟩ := wf.alone split empty
  have live := wf.live pair (member_of_split split)
  have segment := wf.segment_eq split
  refine congrArg Layout.mk (split.trans ?_)
  obtain ⟨⟨offset, length, deleted⟩, segment'⟩ := pair
  simp only at empty live segment
  simp [empty, live, segment]

/-- A layout that shows nothing has a single empty fragment or none at all. -/
theorem blank_or_vacant (wf : layout.WellFormed size) (silent : layout.Silent) :
    layout.pairs = [] ∨ ∃ offset, layout = vacant offset := by
  cases found : layout.pairs with
  | nil => exact .inl rfl
  | cons pair rest =>
    have split : layout.pairs = [] ++ pair :: rest := found
    have empty : pair.fragment.length = 0 := by
      by_contra solid
      exact silent pair.fragment.offset (wf.shows_of_split split (Nat.le_refl _)
        (Nat.lt_add_of_pos_right (Nat.pos_of_ne_zero solid)))
    exact .inr ⟨pair.fragment.offset, wf.eq_vacant split empty⟩

theorem solid_of_shows (wf : layout.WellFormed size) (shown : layout.Shows position) :
    ∀ pair ∈ layout.pairs, 0 < pair.fragment.length := by
  intro pair member
  obtain ⟨front, back, split⟩ := List.append_of_mem member
  by_contra empty
  obtain ⟨rfl, rfl⟩ := wf.alone split (by omega)
  obtain ⟨other, found, -, start, stop⟩ := shown
  obtain rfl : other = pair := by simpa [split] using found
  unfold Interval.stop at stop
  omega

theorem runs_fragments (wf : layout.WellFormed size) (shown : layout.Shows position) :
    Runs layout.Shows 0 size layout.fragments :=
  runs_of_apart wf.live wf.apart (wf.solid_of_shows shown) (fun _ _ => Nat.zero_le _) wf.inside

theorem eq_of_fragments (first : left.WellFormed size) (second : right.WellFormed size)
    (same : left.fragments = right.fragments) : left = right := by
  have live (layout : Layout) (wf : layout.WellFormed size) :
      layout.pairs.map (·.fragment) = layout.fragments.map fun region =>
        (⟨region.offset, region.length, false⟩ : Interval) := by
    rw [fragments, List.map_map]
    refine List.map_congr_left fun pair member => ?_
    simp [← wf.live pair member, Interval.region]
  have fragments : left.pairs.map (·.fragment) = right.pairs.map (·.fragment) := by
    rw [live left first, live right second, same]
  exact congrArg Layout.mk (first.tiled.unique second.tiled fragments)

/-- Two layouts that show the same, and anything at all, are one. -/
theorem eq_of_shows (first : left.WellFormed size) (second : right.WellFormed size)
    (same : ∀ position, left.Shows position ↔ right.Shows position) (shown : left.Shows position) :
    left = right := by
  have runs : Runs left.Shows 0 size right.fragments :=
    (second.runs_fragments ((same position).mp shown)).congr fun other _ _ => (same other).symm
  exact first.eq_of_fragments second ((first.runs_fragments shown).unique runs)

end WellFormed

end TextProjection.Layout
