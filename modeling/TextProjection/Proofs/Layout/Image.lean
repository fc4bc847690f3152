import TextProjection.Proofs.Layout.Search

/-! Images and origins in a well-formed layout. The image of an offset is its rank, a region
has an image where all of it is shown, and an origin is an offset of the wanted rank.
-/

set_option autoImplicit false

namespace TextProjection

namespace Layout

/-- A character inserted at the offset is shown: it stands in front of a shown one, or where
the last fragment ends. -/
def Admits (layout : Layout) (offset : Nat) : Prop :=
  layout.Shows offset ∨ ∃ last, layout.pairs.getLast? = some last ∧ last.fragment.stop = offset

theorem image?_of_empty {layout : Layout} {region : Region} (word : region.stop < Offset.bound)
    (empty : region.length = 0) :
    layout.image? region = (layout.imageOffset? region.offset).map (⟨·, 0⟩) := by
  simp [image?, Region.stop?_eq word, Region.isEmpty, empty]

theorem image?_of_far {layout : Layout} {region : Region} (far : ¬ region.stop < Offset.bound) :
    layout.image? region = none := by
  simp [image?, Region.stop?_eq_none far]

theorem image?_of_between {layout : Layout} {offset length : Nat} {front back : List Pair}
    (split : layout.pairs = front ++ back) (between : Between front back offset)
    (nonempty : 0 < length) : layout.image? ⟨offset, length⟩ = none := by
  have first := fragmentAt?_of_between split between .none
  have solid : Region.isEmpty ⟨offset, length⟩ = false := by
    simp [Region.isEmpty]
    omega
  cases word : Region.stop? ⟨offset, length⟩ <;> simp [image?, word, solid, first]

namespace WellFormed

variable {layout : Layout} {size offset length : Nat} {front back : List Pair} {pair : Pair}

theorem shows_of_split (wf : layout.WellFormed size) (split : layout.pairs = front ++ pair :: back)
    {position : Nat} (start : pair.fragment.offset ≤ position)
    (stop : position < pair.fragment.stop) : layout.Shows position :=
  ⟨pair, member_of_split split, wf.live pair (member_of_split split), start, stop⟩

theorem stop_lt_of_split (wf : layout.WellFormed size) (fits : size < Offset.bound)
    (split : layout.pairs = front ++ pair :: back) : pair.fragment.stop < Offset.bound :=
  Nat.lt_of_le_of_lt (wf.inside pair (member_of_split split)) fits

theorem alone (wf : layout.WellFormed size) (split : layout.pairs = front ++ pair :: back)
    (empty : pair.fragment.length = 0) : front = [] ∧ back = [] := by
  by_contra others
  have several : 2 ≤ layout.size := by
    rw [Layout.size, split, List.length_append, List.length_cons]
    rcases front with _ | _ <;> rcases back with _ | _ <;> simp at others ⊢
    omega
  have := wf.solid several pair (member_of_split split)
  omega

theorem stop_le_last (wf : layout.WellFormed size) {last : Pair}
    (found : layout.pairs.getLast? = some last) :
    ∀ pair ∈ layout.pairs, pair.fragment.stop ≤ last.fragment.stop := by
  intro pair member
  have split : layout.pairs = layout.pairs.dropLast ++ last :: [] :=
    (List.dropLast_append_getLast? last found).symm
  rw [split, List.mem_append, List.mem_singleton] at member
  rcases member with member | rfl
  · have := wf.before split pair member
    have := last.fragment.offset_le_stop
    omega
  · exact Nat.le_refl _

theorem hidden_of_last (wf : layout.WellFormed size) {last : Pair}
    (found : layout.pairs.getLast? = some last) {position : Nat}
    (past : last.fragment.stop ≤ position) : ¬ layout.Shows position :=
  not_shownBy_of_stop_le (wf.stop_le_last found) past

theorem admits_of_holds (wf : layout.WellFormed size)
    (split : layout.pairs = front ++ pair :: back) (holds : pair.fragment.Holds offset) :
    layout.Admits offset := by
  obtain ⟨start, inner⟩ := holds
  by_cases inside : offset < pair.fragment.stop
  · exact .inl (wf.shows_of_split split start inside)
  · have stop := pair.fragment.offset_le_stop
    have empty : pair.fragment.length = 0 := by
      unfold Interval.stop at *
      omega
    obtain ⟨rfl, rfl⟩ := wf.alone split empty
    exact .inr ⟨pair, by simp [split], by omega⟩

theorem imageOf_eq (wf : layout.WellFormed size)
    (split : layout.pairs = front ++ pair :: back) (start : pair.fragment.offset ≤ offset)
    (stop : offset ≤ pair.fragment.stop) : pair.imageOf offset = layout.rank offset := by
  have rank := wf.rank_within split start stop
  have segment : pair.segment.offset = extent front := by rw [wf.segment_eq split]
  unfold Pair.imageOf
  omega

theorem imageOffset?_of_admits (wf : layout.WellFormed size)
    (admits : layout.Admits offset) : layout.imageOffset? offset = some (layout.rank offset) := by
  rcases held_or_between wf.apart offset with ⟨front, pair, back, split, holds⟩ |
    ⟨front, back, split, between⟩
  · have stop : offset ≤ pair.fragment.stop := by
      have := pair.fragment.offset_le_stop
      rcases holds.2 with inside | start <;> omega
    simp only [imageOffset?, wf.fragmentAt?_of_holds split holds]
    rw [← wf.imageOf_eq split holds.1 stop]
    simp [split]
  -- No fragment holds the offset, so it can only be the end of the last one.
  · obtain ⟨last, found, limit⟩ : ∃ last, layout.pairs.getLast? = some last ∧
        last.fragment.stop = offset := by
      rcases admits with shown | last
      · rw [Shows, split] at shown
        exact absurd shown between.not_shownBy
      · exact last
    have ending : layout.pairs = layout.pairs.dropLast ++ [last] :=
      (List.dropLast_append_getLast? last found).symm
    simp only [imageOffset?, fragmentAt?_of_between split between, found]
    rw [← wf.imageOf_eq ending (limit ▸ last.fragment.offset_le_stop) limit.ge]
    simp [limit]

theorem imageOffset?_eq_none (wf : layout.WellFormed size)
    (refused : ¬ layout.Admits offset) : layout.imageOffset? offset = none := by
  rcases held_or_between wf.apart offset with ⟨front, pair, back, split, holds⟩ |
    ⟨front, back, split, between⟩
  · exact absurd (wf.admits_of_holds split holds) refused
  · simp only [imageOffset?, fragmentAt?_of_between split between, Option.map_eq_none_iff,
      Option.filter_eq_none_iff]
    intro last found stop
    refine refused (.inr ⟨last, found, ?_⟩)
    simpa using stop

/-- What is shown without a break lies under one fragment. -/
theorem exists_cover (wf : layout.WellFormed size) (nonempty : 0 < length)
    (shown : ∀ position, offset ≤ position → position < offset + length → layout.Shows position) :
    ∃ front pair back, layout.pairs = front ++ pair :: back ∧ pair.fragment.offset ≤ offset ∧
      offset + length ≤ pair.fragment.stop := by
  obtain ⟨pair, member, live, start, stop⟩ := shown offset (Nat.le_refl _) (by omega)
  obtain ⟨front, back, split⟩ := List.append_of_mem member
  refine ⟨front, pair, back, split, start, Nat.le_of_not_lt fun short => ?_⟩
  obtain ⟨other, otherMember, -, otherStart, otherStop⟩ :=
    shown pair.fragment.stop (Nat.le_of_lt stop) short
  rw [split] at otherMember
  rcases List.mem_append.mp otherMember with inFront | inBack
  · have := wf.before split other inFront
    omega
  · rcases List.mem_cons.mp inBack with rfl | inBack
    · omega
    · have := wf.after split other inBack
      omega

theorem image?_of_cover (wf : layout.WellFormed size) (word : offset + length < Offset.bound)
    (split : layout.pairs = front ++ pair :: back) (nonempty : 0 < length)
    (start : pair.fragment.offset ≤ offset) (stop : offset + length ≤ pair.fragment.stop) :
    layout.image? ⟨offset, length⟩ = some ⟨layout.rank offset, length⟩ := by
  have word : Region.stop? ⟨offset, length⟩ = some (offset + length) := Region.stop?_eq word
  have first : layout.fragmentAt? offset .none = some front.length :=
    wf.fragmentAt?_of_holds split ⟨start, .inl (by omega)⟩ .none
  have last : layout.fragmentAt? (offset + length - 1) .none = some front.length :=
    wf.fragmentAt?_of_holds split ⟨by omega, .inl (by omega)⟩ .none
  have entry : layout.pairs[front.length]? = some pair := by simp [split]
  have single : Contiguous ((layout.pairs.drop front.length).take 1) = true := by
    simp [split, Contiguous]
  have left := wf.imageOf_eq split start (by omega)
  have low : pair.fragment.offset ≤ offset + length := by omega
  have right := wf.imageOf_eq split low stop
  have rankStart := wf.rank_within split start (by omega)
  have rankStop := wf.rank_within split low stop
  have gained : layout.rank (offset + length) - layout.rank offset = length := by omega
  have solid : Region.isEmpty ⟨offset, length⟩ = false := by
    simp [Region.isEmpty]
    omega
  simp [image?, word, solid, first, last, single, entry, left, right, Region.ofBounds, gained]

theorem originOf_eq (wf : layout.WellFormed size)
    (split : layout.pairs = front ++ pair :: back) {image : Nat} (start : extent front ≤ image) :
    pair.originOf image = pair.fragment.offset + (image - extent front) := by
  have segment : pair.segment.offset = extent front := by rw [wf.segment_eq split]
  unfold Pair.originOf
  omega

theorem origin_within (wf : layout.WellFormed size) (split : layout.pairs = front ++ pair :: back)
    {image : Nat} (start : extent front ≤ image)
    (stop : image ≤ extent front + pair.fragment.length) :
    layout.rank (pair.fragment.offset + (image - extent front)) = image ∧
      pair.fragment.offset + (image - extent front) ≤ pair.fragment.stop := by
  have stop' : pair.fragment.offset + (image - extent front) ≤ pair.fragment.stop := by
    unfold Interval.stop
    omega
  refine ⟨?_, stop'⟩
  rw [wf.rank_within split (Nat.le_add_right _ _) stop']
  omega

theorem originOffset?_eq (wf : layout.WellFormed size)
    (split : layout.pairs = front ++ pair :: back) {image : Nat} (start : extent front ≤ image)
    (inner : image < extent front + pair.fragment.length ∨
      back = [] ∧ image = extent front + pair.fragment.length) :
    layout.originOffset? image = some (pair.fragment.offset + (image - extent front)) := by
  have stop : image ≤ extent front + pair.fragment.length := by omega
  rw [← wf.originOf_eq split start]
  simp [originOffset?, wf.segmentAt?_eq split start inner, split]

theorem imageStop_eq (wf : layout.WellFormed size) :
    layout.imageStop = extent layout.pairs := by
  cases found : layout.pairs.getLast? with
  | none => simp [imageStop, List.getLast?_eq_none_iff.mp found]
  | some last =>
    have ending : layout.pairs = layout.pairs.dropLast ++ [last] :=
      (List.dropLast_append_getLast? last found).symm
    have extents : extent layout.pairs = extent layout.pairs.dropLast + last.fragment.length := by
      conv => lhs; rw [ending]
      simp
    rw [imageStop, found, Option.elim_some, wf.segment_stop ending, extents]

/-- Each offset of the projection has an origin of that rank, which admits characters. -/
theorem exists_origin (wf : layout.WellFormed size)
    (nonempty : layout.pairs ≠ []) {image : Nat} (inside : image ≤ extent layout.pairs) :
    ∃ origin, layout.originOffset? image = some origin ∧ layout.rank origin = image ∧
      origin ≤ size ∧ layout.Admits origin := by
  obtain ⟨front, pair, back, split, start, inner⟩ := exists_segment nonempty inside
  have stop : image ≤ extent front + pair.fragment.length := by omega
  obtain ⟨rank, limit⟩ := wf.origin_within split start stop
  refine ⟨_, wf.originOffset?_eq split start inner, rank,
    Nat.le_trans limit (wf.inside pair (member_of_split split)), ?_⟩
  rcases inner with inner | ⟨rfl, rfl⟩
  · exact .inl (wf.shows_of_split split (Nat.le_add_right _ _) (by unfold Interval.stop; omega))
  · exact .inr ⟨pair, by simp [split], by simp [Interval.stop]⟩

/-- The hull of a region of the projection, from the origin of its first character to that
of its last one. -/
theorem exists_hull (wf : layout.WellFormed size) (fits : size < Offset.bound)
    (nonempty : layout.pairs ≠ []) {image : Region}
    (inside : image.offset + image.length ≤ extent layout.pairs) :
    ∃ start stop, layout.hull? image = some ⟨start, stop - start⟩ ∧
      layout.originOffset? image.offset = some start ∧
      (image.length = 0 → stop = start) ∧
      (0 < image.length → start < stop ∧
        layout.originOffset? (image.offset + image.length - 1) = some (stop - 1)) ∧
      start ≤ stop ∧ stop ≤ size ∧ layout.Admits start ∧
      layout.rank start = image.offset ∧ layout.rank stop = image.offset + image.length := by
  have total := wf.extent_le
  have word : image.stop? = some (image.offset + image.length) :=
    Region.stop?_eq (show image.offset + image.length < _ by omega)
  have within : ¬ layout.imageStop < image.offset + image.length := by
    rw [wf.imageStop_eq]
    omega
  obtain ⟨start, origin, startRank, startInside, admits⟩ :=
    wf.exists_origin nonempty (Nat.le_trans (Nat.le_add_right _ _) inside)
  by_cases empty : image.length = 0
  · refine ⟨start, start, ?_, origin, fun _ => rfl, by omega, Nat.le_refl _, startInside, admits,
      startRank, by rw [startRank, empty, Nat.add_zero]⟩
    simp only [hull?, word, Option.bind_eq_bind, Option.bind_some, if_neg within, origin]
    simp [Region.isEmpty, empty]
  · have lastInside : image.offset + image.length - 1 ≤ extent layout.pairs := by omega
    obtain ⟨front, pair, back, split, low, inner⟩ := exists_segment nonempty lastInside
    have inner : image.offset + image.length - 1 < extent front + pair.fragment.length := by
      rcases inner with inner | ⟨rfl, stop⟩
      · exact inner
      · rw [split, extent_append, extent_cons, extent_nil] at inside
        omega
    have last := wf.originOffset?_eq split low (.inl inner)
    -- The hull ends one past the origin of the last character, in the same fragment.
    have found := wf.segmentAt?_eq split low (.inl inner)
    have fromFront : extent front ≤ image.offset + image.length := by omega
    have withinPair : image.offset + image.length ≤ extent front + pair.fragment.length := by
      omega
    have stop := wf.originOf_eq split fromFront
    obtain ⟨stopRank, stopLimit⟩ := wf.origin_within split fromFront withinPair
    have entry : layout.pairs[front.length]? = some pair := by simp [split]
    have order : start < pair.fragment.offset + (image.offset + image.length - extent front) :=
      Nat.lt_of_count_lt_count (p := layout.Shows) <| by
        change layout.rank _ < layout.rank _
        omega
    refine ⟨start, pair.fragment.offset + (image.offset + image.length - extent front), ?_, origin,
      fun none => absurd none empty, fun _ => ⟨order, last.trans (congrArg some (by omega))⟩,
      Nat.le_of_lt order,
      Nat.le_trans stopLimit (wf.inside pair (member_of_split split)), admits, startRank, stopRank⟩
    simp only [hull?, word, Option.bind_eq_bind, Option.bind_some, if_neg within, origin]
    simp [Region.isEmpty, empty, found, entry, stop, Region.ofBounds]

end WellFormed

end Layout

end TextProjection
