import TextProjection.Proofs.Layout.Unique

/-! Translation between a master and its projection, in well-formed layouts. A region has an image
where all of it is shown, with one exception: a character has one, too, at which nothing but an empty
fragment stands. Offsets are translated both ways by counting. The image of an offset is the number of
characters that are shown before it, and among the offsets that have an image no two have the same.
-/

set_option autoImplicit false

namespace TextProjection.Layout

namespace WellFormed

variable {layout : Layout} {size offset image origin : Nat} {region : Region}
  {front back : List Pair} {pair : Pair}

/-! Regions -/

/-- What is shown as a whole has its image where it stands. -/
theorem image?_of_shown (wf : layout.WellFormed size) (fits : size < Offset.bound)
    (nonempty : 0 < region.length)
    (shown : ∀ position, region.Covers position → layout.Shows position) :
    layout.image? region = some ⟨layout.rank region.offset, region.length⟩ ∧
      layout.rank region.stop = layout.rank region.offset + region.length := by
  obtain ⟨front, pair, back, split, start, stop⟩ :=
    wf.exists_cover nonempty fun position low high => shown position ⟨low, high⟩
  have order : region.offset ≤ region.stop := Nat.le_add_right _ _
  have rankStart := wf.rank_within split start (Nat.le_trans order stop)
  have rankStop := wf.rank_within split (Nat.le_trans start order) stop
  have limit : region.stop = region.offset + region.length := rfl
  have word := Nat.lt_of_le_of_lt stop (wf.stop_lt_of_split fits split)
  exact ⟨wf.image?_of_cover word split nonempty start stop, by omega⟩

theorem rank_le_imageStop (wf : layout.WellFormed size) (offset : Nat) :
    layout.rank offset ≤ layout.imageStop := by
  rw [wf.imageStop_eq]
  exact wf.rank_le_extent offset

theorem rank_lt_rank (wf : layout.WellFormed size) {low high : Nat} (first : layout.Admits low)
    (second : layout.Admits high) (lt : low < high) : layout.rank low < layout.rank high := by
  rcases first with shown | ⟨last, found, limit⟩
  · exact Nat.count_strict_mono shown lt
  -- Nothing comes after the end of the last fragment.
  · rcases second with shown | ⟨other, found', limit'⟩
    · exact absurd shown (wf.hidden_of_last found (limit ▸ Nat.le_of_lt lt))
    · rw [found] at found'
      cases found'
      omega

theorem eq_of_rank_eq (wf : layout.WellFormed size) {low high : Nat} (first : layout.Admits low)
    (second : layout.Admits high) (same : layout.rank low = layout.rank high) : low = high := by
  rcases Nat.lt_trichotomy low high with lt | eq | gt
  · exact absurd same (Nat.ne_of_lt (wf.rank_lt_rank first second lt))
  · exact eq
  · exact absurd same.symm (Nat.ne_of_lt (wf.rank_lt_rank second first gt))

theorem le_of_segmentAt? (wf : layout.WellFormed size) {index : Nat}
    (found : layout.segmentAt? image = some index) : image ≤ extent layout.pairs := by
  unfold segmentAt? at found
  split at found
  · cases found
  · next index _ =>
    simp only [Option.ite_none_right_eq_some, Option.any_eq_true] at found
    obtain ⟨⟨pair, entry, holds⟩, -⟩ := found
    obtain ⟨front, back, split⟩ := List.append_of_mem (List.mem_of_getElem? entry)
    have stop := wf.segment_stop split
    have offset : pair.segment.offset = extent front := by rw [wf.segment_eq split]
    simp only [Interval.contains, stop, offset, Bool.or_eq_true, Bool.and_eq_true,
      decide_eq_true_eq, beq_iff_eq] at holds
    rw [split, extent_append, extent_cons]
    omega

theorem originOffset?_iff (wf : layout.WellFormed size) :
    layout.originOffset? image = some origin ↔ layout.Admits origin ∧ layout.rank origin = image := by
  constructor
  · intro some
    obtain ⟨index, found, pair, entry, -⟩ : ∃ index, layout.segmentAt? image = Option.some index ∧
        ∃ pair, layout.pairs[index]? = Option.some pair ∧ pair.originOf image = origin := by
      simpa [originOffset?, Option.bind_eq_some_iff] using some
    have nonempty : layout.pairs ≠ [] := List.ne_nil_of_mem (List.mem_of_getElem? entry)
    obtain ⟨_, same, rank, -, admits⟩ :=
      wf.exists_origin nonempty (wf.le_of_segmentAt? found)
    obtain rfl := Option.some.inj (same.symm.trans some)
    exact ⟨admits, rank⟩
  · rintro ⟨admits, rfl⟩
    have nonempty : layout.pairs ≠ [] := by
      rcases admits with ⟨pair, member, -⟩ | ⟨last, found, -⟩
      · exact List.ne_nil_of_mem member
      · exact List.ne_nil_of_mem (List.mem_of_getLast? found)
    have inside := wf.rank_le_imageStop origin
    rw [wf.imageStop_eq] at inside
    obtain ⟨other, found, rank, -, otherAdmits⟩ := wf.exists_origin nonempty inside
    rw [found, wf.eq_of_rank_eq otherAdmits admits rank]

theorem shows_of_originOffset? (wf : layout.WellFormed size)
    (found : layout.originOffset? image = some origin) (inside : image < layout.imageStop) :
    layout.Shows origin := by
  obtain ⟨admits, rfl⟩ := (wf.originOffset?_iff).mp found
  rcases admits with shown | ⟨last, found, limit⟩
  · exact shown
  · have all : layout.rank origin = extent layout.pairs :=
      count_shownBy_of_stop_le wf.ordered fun pair member =>
        limit ▸ wf.stop_le_last found pair member
    rw [wf.imageStop_eq] at inside
    omega

end WellFormed

end TextProjection.Layout
