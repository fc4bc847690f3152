import TextProjection.Projection
import TextProjection.Proofs.Layout.Image
import TextProjection.Proofs.Layout.Runs

/-! What is shown and what is hidden of a master region. The parts that are shown lie one
under each fragment that reaches into the region, and the hidden parts are the maximal runs
of characters that are not shown.
-/

set_option autoImplicit false

namespace TextProjection

def Pair.within? (pair : Pair) (region : Region) : Option Region :=
  let start := max region.offset pair.fragment.offset
  let stop := min region.stop pair.fragment.stop
  if start < stop then some (.ofBounds start stop) else none

namespace Pair

variable {pair : Pair} {region part : Region}

theorem within?_eq_some (found : pair.within? region = some part) :
    0 < part.length ∧ part.offset = max region.offset pair.fragment.offset ∧
      part.stop = min region.stop pair.fragment.stop := by
  unfold within? at found
  simp only at found
  split at found
  · next room =>
    obtain rfl := Option.some.inj found
    exact ⟨Nat.sub_pos_of_lt room, rfl, Nat.add_sub_of_le (Nat.le_of_lt room)⟩
  · cases found

theorem within?_eq_none (far : pair.fragment.stop ≤ region.offset ∨
    region.stop ≤ pair.fragment.offset) : pair.within? region = none := by
  unfold within?
  simp only
  rw [if_neg]
  omega

end Pair

namespace Layout

theorem filter_origins?_of_empty (layout : Layout) (offset : Nat) :
    ((layout.origins? ⟨offset, 0⟩).getD []).filter (!·.isEmpty) = [] := by
  simp only [origins?, Region.isEmpty, Option.bind_eq_bind, beq_self_eq_true, if_true]
  cases Region.stop? ⟨offset, 0⟩ with
  | none => rfl
  | some stop =>
    simp only [Option.bind_some]
    split
    · rfl
    · cases layout.originOffset? offset <;> simp

theorem parts_inside (pairs : List Pair) (region : Region) :
    ∀ part ∈ pairs.filterMap (·.within? region),
      0 < part.length ∧ region.offset ≤ part.offset ∧ part.stop ≤ region.stop := by
  intro part member
  obtain ⟨pair, -, found⟩ := List.mem_filterMap.mp member
  have := Pair.within?_eq_some found
  omega

namespace WellFormed

variable {layout : Layout} {size offset : Nat} {region : Region} {front back : List Pair}
  {pair : Pair}

theorem exists_split_from (wf : layout.WellFormed size) (offset : Nat) :
    ∃ front back, layout.pairs = front ++ back ∧
      (∀ pair ∈ front, pair.fragment.offset < offset ∧ pair.fragment.stop ≤ offset) ∧
      ∀ pair ∈ back, offset ≤ pair.fragment.offset ∨ offset < pair.fragment.stop := by
  rcases held_or_between wf.apart offset with ⟨front, pair, back, split, start, inner⟩ |
    ⟨front, back, split, between⟩
  · refine ⟨front, pair :: back, split, fun other member => ?_, ?_⟩
    · have := wf.before split other member
      have := other.fragment.offset_le_stop
      omega
    · refine List.forall_mem_cons.mpr ⟨by omega, fun other member => ?_⟩
      have := wf.after split other member
      have := pair.fragment.offset_le_stop
      omega
  · exact ⟨front, back, split, between.past, fun other member =>
      .inl (Nat.le_of_lt (between.ahead other member))⟩

theorem exists_split_past (wf : layout.WellFormed size) (offset : Nat) :
    ∃ front back, layout.pairs = front ++ back ∧
      (∀ pair ∈ front, pair.fragment.offset ≤ offset) ∧
      ∀ pair ∈ back, offset < pair.fragment.offset := by
  obtain ⟨front, back, split, starts, ahead⟩ := wf.ordered.exists_split_before (offset + 1)
  exact ⟨front, back, split, fun pair member => Nat.le_of_lt_succ (starts pair member), ahead⟩

theorem fragmentAt?_right (wf : layout.WellFormed size)
    (split : layout.pairs = front ++ back)
    (past : ∀ pair ∈ front, pair.fragment.offset < offset ∧ pair.fragment.stop ≤ offset)
    (ahead : ∀ pair ∈ back, offset ≤ pair.fragment.offset ∨ offset < pair.fragment.stop) :
    layout.fragmentAt? offset .right =
      if front.length < layout.size then some front.length else none := by
  cases back with
  | nil => exact fragmentAt?_of_between split ⟨past, by simp⟩ .right
  | cons pair rest =>
    by_cases start : pair.fragment.offset ≤ offset
    · have inside : front.length < layout.size := by simp [Layout.size, split]
      have first := ahead pair (List.mem_cons_self ..)
      rw [wf.fragmentAt?_of_holds split ⟨start, by omega⟩, if_pos inside]
    · refine fragmentAt?_of_between split ⟨past, ?_⟩ .right
      refine List.forall_mem_cons.mpr ⟨by omega, fun other member => ?_⟩
      have := wf.after split other member
      have := pair.fragment.offset_le_stop
      omega

theorem fragmentAt?_left (wf : layout.WellFormed size)
    (split : layout.pairs = front ++ back) (past : ∀ pair ∈ front, pair.fragment.offset ≤ offset)
    (ahead : ∀ pair ∈ back, offset < pair.fragment.offset) :
    layout.fragmentAt? offset .left = if 0 < front.length then some (front.length - 1) else none := by
  rcases List.eq_nil_or_concat' front with rfl | ⟨init, last, rfl⟩
  · exact fragmentAt?_of_between split ⟨by simp, ahead⟩ .left
  · have regroup : layout.pairs = init ++ last :: back := by simp [split]
    have start : last.fragment.offset ≤ offset := past last (by simp)
    by_cases inner : offset < last.fragment.stop ∨ offset = last.fragment.offset
    · rw [wf.fragmentAt?_of_holds regroup ⟨start, inner⟩]
      simp
    · refine fragmentAt?_of_between split ⟨fun other member => ?_, ahead⟩ .left
      rcases List.mem_append.mp member with member | member
      · have := wf.before regroup other member
        have := other.fragment.offset_le_stop
        omega
      · rw [List.mem_singleton.mp member]
        omega

theorem rank_beside (wf : layout.WellFormed size) (split : layout.pairs = front ++ pair :: back)
    (offset : Nat) :
    (offset ≤ pair.fragment.offset → layout.rank offset ≤ extent front) ∧
      (pair.fragment.stop ≤ offset →
        extent front + pair.fragment.length ≤ layout.rank offset) := by
  have start := wf.rank_within split (Nat.le_refl _) pair.fragment.offset_le_stop
  have stop := wf.rank_within split pair.fragment.offset_le_stop (Nat.le_refl _)
  constructor
  · intro early
    have : layout.rank offset ≤ layout.rank pair.fragment.offset := Nat.count_monotone _ early
    omega
  · intro late
    have : layout.rank pair.fragment.stop ≤ layout.rank offset := Nat.count_monotone _ late
    unfold Interval.stop at *
    omega

theorem image_start (wf : layout.WellFormed size)
    (split : layout.pairs = front ++ pair :: back)
    (past : ∀ other ∈ front, other.fragment.stop ≤ offset)
    (reaches : offset ≤ pair.fragment.offset ∨ offset < pair.fragment.stop) :
    (if pair.fragment.contains offset then pair.imageOf offset else pair.segment.offset) =
      layout.rank offset := by
  split
  · next inside =>
    simp only [Interval.contains, Bool.and_eq_true, decide_eq_true_eq] at inside
    exact wf.imageOf_eq split inside.1 (Nat.le_of_lt inside.2)
  · next outside =>
    simp only [Interval.contains, Bool.and_eq_true, decide_eq_true_eq] at outside
    rw [wf.segment_eq split, wf.rank_between split past]
    refine List.forall_mem_cons.mpr ⟨by omega, fun other member => ?_⟩
    have := wf.after split other member
    have := pair.fragment.offset_le_stop
    omega

theorem image_stop (wf : layout.WellFormed size)
    (split : layout.pairs = front ++ pair :: back) (start : pair.fragment.offset < offset)
    (ahead : ∀ other ∈ back, offset ≤ other.fragment.offset) :
    (if pair.fragment.contains (offset - 1) then pair.imageOf offset else pair.segment.stop) =
      layout.rank offset := by
  split
  · next inside =>
    simp only [Interval.contains, Bool.and_eq_true, decide_eq_true_eq] at inside
    exact wf.imageOf_eq split (by omega) (by omega)
  · next outside =>
    simp only [Interval.contains, Bool.and_eq_true, decide_eq_true_eq] at outside
    have regroup : layout.pairs = (front ++ [pair]) ++ back := by simp [split]
    have past : ∀ other ∈ front ++ [pair], other.fragment.stop ≤ offset := by
      refine List.forall_mem_append.mpr ⟨fun other member => ?_, by simp; omega⟩
      have := wf.before split other member
      omega
    rw [wf.segment_stop split, wf.rank_between regroup past ahead]
    simp

/-- From the first fragment that reaches past the start of a region to the last one that starts
before its end. -/
theorem nearestImage?_of_split (wf : layout.WellFormed size)
    (nonempty : 0 < region.length) (word : region.stop < Offset.bound)
    {front rest init back : List Pair} {left right : Pair}
    (split : layout.pairs = front ++ left :: rest) (split' : layout.pairs = init ++ right :: back)
    (order : front.length ≤ init.length)
    (past : ∀ pair ∈ front, pair.fragment.offset < region.offset ∧
      pair.fragment.stop ≤ region.offset)
    (reaches : ∀ pair ∈ left :: rest, region.offset ≤ pair.fragment.offset ∨
      region.offset < pair.fragment.stop)
    (starts : ∀ pair ∈ init ++ [right], pair.fragment.offset ≤ region.stop - 1)
    (ahead : ∀ pair ∈ back, region.stop - 1 < pair.fragment.offset) :
    layout.nearestImage? region =
      some (.ofBounds (layout.rank region.offset) (layout.rank region.stop)) := by
  have stop : region.stop? = some region.stop := Region.stop?_eq word
  have solid := Region.isEmpty_eq_false nonempty
  have room : region.offset < region.stop := Nat.lt_add_of_pos_right nonempty
  have regroup : layout.pairs = (init ++ [right]) ++ back := by simp [split']
  have first : layout.fragmentAt? region.offset .right = some front.length := by
    rw [wf.fragmentAt?_right split past reaches, if_pos (by simp [Layout.size, split])]
  have last : layout.fragmentAt? (region.stop - 1) .left = some init.length := by
    rw [wf.fragmentAt?_left regroup starts ahead]
    simp
  have leftEntry : layout.pairs[front.length]? = some left := by simp [split]
  have rightEntry : layout.pairs[init.length]? = some right := by simp [split']
  have start := wf.image_start split (fun other member => (past other member).2)
    (reaches left (List.mem_cons_self ..))
  have low : right.fragment.offset < region.stop := by
    have := starts right (by simp)
    omega
  have finish := wf.image_stop split' low fun other member => by
    have := ahead other member
    omega
  simp only [nearestImage?, stop, solid, first, last, leftEntry, rightEntry, Option.bind_eq_bind,
    Option.bind_some, Bool.false_eq_true, if_false, if_pos order, start, finish]

theorem nearestImage?_eq_none (wf : layout.WellFormed size)
    (nonempty : 0 < region.length) (word : region.stop < Offset.bound)
    {front rest init back : List Pair} (split : layout.pairs = front ++ rest)
    (split' : layout.pairs = init ++ back) (order : init.length ≤ front.length)
    (past : ∀ pair ∈ front, pair.fragment.offset < region.offset ∧
      pair.fragment.stop ≤ region.offset)
    (reaches : ∀ pair ∈ rest, region.offset ≤ pair.fragment.offset ∨
      region.offset < pair.fragment.stop)
    (starts : ∀ pair ∈ init, pair.fragment.offset ≤ region.stop - 1)
    (ahead : ∀ pair ∈ back, region.stop - 1 < pair.fragment.offset) :
    layout.nearestImage? region = none ∧ ∀ pair ∈ layout.pairs,
      pair.fragment.stop ≤ region.offset ∨ region.stop ≤ pair.fragment.offset := by
  have stop : region.stop? = some region.stop := Region.stop?_eq word
  have solid := Region.isEmpty_eq_false nonempty
  constructor
  · simp only [nearestImage?, stop, solid, wf.fragmentAt?_right split past reaches,
      wf.fragmentAt?_left split' starts ahead, Option.bind_eq_bind, Option.bind_some,
      Bool.false_eq_true, if_false]
    by_cases inside : front.length < layout.size
    · by_cases some : 0 < init.length
      · rw [if_pos inside, if_pos some, Option.bind_some, Option.bind_some, if_neg (by omega)]
      · rw [if_pos inside, if_neg some, Option.bind_some, Option.bind_none]
    · rw [if_neg inside, Option.bind_none]
  · have beyond : ∀ pair ∈ rest, region.stop - 1 < pair.fragment.offset := by
      have dropped : rest = back.drop (front.length - init.length) := by
        have same := congrArg (List.drop front.length) (split.symm.trans split')
        rwa [List.drop_left, List.drop_append, List.drop_of_length_le order, List.nil_append] at same
      rw [dropped]
      exact fun pair member => ahead pair (List.mem_of_mem_drop member)
    intro pair member
    rw [split] at member
    rcases List.mem_append.mp member with member | member
    · exact .inl (past pair member).2
    · have := beyond pair member
      omega

/-- The image nearest to a region covers what is shown of it. Without one, no fragment
reaches into the region. -/
theorem nearestImage?_eq (wf : layout.WellFormed size)
    (nonempty : 0 < region.length) (word : region.stop < Offset.bound) :
    layout.nearestImage? region =
        some (.ofBounds (layout.rank region.offset) (layout.rank region.stop)) ∨
      (layout.nearestImage? region = none ∧ ∀ pair ∈ layout.pairs,
        pair.fragment.stop ≤ region.offset ∨ region.stop ≤ pair.fragment.offset) := by
  obtain ⟨front, rest, split, past, reaches⟩ := wf.exists_split_from region.offset
  obtain ⟨init, back, split', starts, ahead⟩ := wf.exists_split_past (region.stop - 1)
  -- The fragments that reach past the start are a suffix of the list, and those that start before
  -- the end a prefix. There is an image if the two overlap.
  rcases Nat.lt_or_ge front.length init.length with order | order
  · have lengths := congrArg List.length (split.symm.trans split')
    simp only [List.length_append] at lengths
    obtain ⟨left, rest, rfl⟩ := List.exists_cons_of_length_pos (l := rest) (by omega)
    rcases List.eq_nil_or_concat' init with rfl | ⟨init, right, rfl⟩
    · exact absurd order (Nat.not_lt_zero _)
    · rw [List.length_append, List.length_singleton] at order
      have regroup : layout.pairs = init ++ right :: back := by simp [split']
      exact .inl (wf.nearestImage?_of_split nonempty word split regroup (by omega) past reaches
        starts ahead)
  · exact .inr (wf.nearestImage?_eq_none nonempty word split split' order past reaches starts
      ahead)

theorem origins?_eq (wf : layout.WellFormed size) {image : Region} (nonempty : 0 < image.length)
    (word : image.stop < Offset.bound) (inside : image.stop ≤ extent layout.pairs) :
    layout.origins? image =
      some (layout.pairs.filterMap (originWithin? image.offset image.stop)) := by
  have stop : image.stop? = some image.stop := Region.stop?_eq word
  have solid := Region.isEmpty_eq_false nonempty
  have within : ¬ layout.imageStop < image.stop := by
    rw [wf.imageStop_eq]
    omega
  have room : image.offset < image.stop := Nat.lt_add_of_pos_right nonempty
  have some : layout.pairs ≠ [] := by
    rintro none
    rw [none, extent_nil] at inside
    omega
  obtain ⟨front, pair, back, split, start, inner⟩ :=
    exists_segment some (Nat.le_trans (Nat.le_of_lt room) inside)
  have first := wf.segmentAt?_eq split start inner
  have tiled := wf.tiled
  rw [split, tiles_append, Nat.zero_add] at tiled
  have skipped : front.filterMap (originWithin? image.offset image.stop) = [] := by
    refine List.filterMap_eq_nil_iff.mpr fun other member => ?_
    have bounds := tiled.1.bounds member
    have length := (tiled.1.length_segment member).1
    have segmentStop : other.segment.stop = other.segment.offset + other.segment.length := rfl
    simp only [originWithin?, segmentStop]
    rw [if_neg]
    omega
  -- The walk stops at the first segment past the end, and none behind it has a part.
  have rest : ((pair :: back).takeWhile (·.segment.offset < image.stop)).filterMap
      (originWithin? image.offset image.stop) =
        (pair :: back).filterMap (originWithin? image.offset image.stop) := by
    refine filterMap_takeWhile ?_ fun other member late => ?_
    · refine tiled.2.pairwise.imp fun {left right} order early => ?_
      simp only [decide_eq_true_eq] at early ⊢
      omega
    · simp only [decide_eq_false_iff_not] at late
      simp only [originWithin?]
      rw [if_neg]
      omega
  have dropped : layout.pairs.drop front.length = pair :: back := by simp [split]
  simp only [origins?, stop, Option.bind_eq_bind, Option.bind_some, if_neg within, solid, first,
    Bool.false_eq_true, if_false, dropped, rest]
  rw [split, List.filterMap_append, skipped, List.nil_append]

theorem max_rank (wf : layout.WellFormed size) (split : layout.pairs = front ++ pair :: back)
    (reaches : offset ≤ pair.fragment.stop) :
    max (layout.rank offset) (extent front) =
      extent front + (max offset pair.fragment.offset - pair.fragment.offset) := by
  rcases Nat.le_total offset pair.fragment.offset with early | late
  · have := (wf.rank_beside split offset).1 early
    omega
  · have := wf.rank_within split late reaches
    omega

theorem min_rank (wf : layout.WellFormed size) (split : layout.pairs = front ++ pair :: back)
    (starts : pair.fragment.offset ≤ offset) :
    min (layout.rank offset) (extent front + pair.fragment.length) =
      extent front + (min offset pair.fragment.stop - pair.fragment.offset) := by
  have limit : pair.fragment.stop = pair.fragment.offset + pair.fragment.length := rfl
  rcases Nat.le_total offset pair.fragment.stop with early | late
  · have := wf.rank_within split starts early
    omega
  · have := (wf.rank_beside split offset).2 late
    omega

theorem originWithin?_eq (wf : layout.WellFormed size)
    (split : layout.pairs = front ++ pair :: back) (region : Region) :
    originWithin? (layout.rank region.offset) (layout.rank region.stop) pair =
      pair.within? region := by
  have segmentOffset : pair.segment.offset = extent front := by rw [wf.segment_eq split]
  simp only [originWithin?, wf.segment_stop split, segmentOffset]
  by_cases apart : pair.fragment.stop ≤ region.offset ∨ region.stop ≤ pair.fragment.offset
  · rw [Pair.within?_eq_none apart, if_neg]
    rcases apart with early | late
    · have := (wf.rank_beside split region.offset).2 early
      omega
    · have := (wf.rank_beside split region.stop).1 late
      omega
  · obtain ⟨reaches, starts⟩ := not_or.mp apart
    have limit : pair.fragment.stop = pair.fragment.offset + pair.fragment.length := rfl
    rw [wf.max_rank split (by omega), wf.min_rank split (by omega)]
    unfold Pair.within?
    simp only
    by_cases part : max region.offset pair.fragment.offset < min region.stop pair.fragment.stop
    · rw [if_pos (by omega), if_pos part, wf.originOf_eq split (by omega),
        wf.originOf_eq split (by omega)]
      congr 2 <;> omega
    · rw [if_neg (by omega), if_neg part]

theorem origins?_of_ranks (wf : layout.WellFormed size) (word : region.stop < Offset.bound)
    (solid : layout.rank region.offset < layout.rank region.stop) :
    layout.origins? (.ofBounds (layout.rank region.offset) (layout.rank region.stop)) =
      some (layout.pairs.filterMap (·.within? region)) := by
  have limit : (Region.ofBounds (layout.rank region.offset) (layout.rank region.stop)).stop =
      layout.rank region.stop := Nat.add_sub_of_le (Nat.le_of_lt solid)
  have inside : (Region.ofBounds (layout.rank region.offset) (layout.rank region.stop)).stop ≤
      extent layout.pairs := by
    rw [limit]
    exact wf.rank_le_extent _
  have small : (Region.ofBounds (layout.rank region.offset) (layout.rank region.stop)).stop <
      Offset.bound := by
    rw [limit]
    exact Nat.lt_of_le_of_lt (Nat.count_le _) word
  rw [wf.origins?_eq (Nat.sub_pos_of_lt solid) small inside, limit]
  refine congrArg some (List.filterMap_congr fun pair member => ?_)
  obtain ⟨front, back, split⟩ := List.append_of_mem member
  exact wf.originWithin?_eq split region

theorem shown_eq (wf : layout.WellFormed size)
    (nonempty : 0 < region.length) (word : region.stop < Offset.bound) :
    layout.shown region = layout.pairs.filterMap (·.within? region) := by
  have solid : (layout.pairs.filterMap (·.within? region)).filter (!·.isEmpty) =
      layout.pairs.filterMap (·.within? region) :=
    List.filter_eq_self.mpr fun part member => by
      rw [Region.isEmpty_eq_false (parts_inside _ _ part member).1, Bool.not_false]
  rcases wf.nearestImage?_eq nonempty word with image | ⟨image, far⟩
  · have order : layout.rank region.offset ≤ layout.rank region.stop :=
      Nat.count_monotone _ (Nat.le_add_right _ _)
    rw [shown, image, Option.bind_some]
    -- The nearest image may be empty, and then it has no parts.
    by_cases empty : layout.rank region.offset = layout.rank region.stop
    · have none : layout.pairs.filterMap (·.within? region) = [] := by
        refine List.filterMap_eq_nil_iff.mpr fun pair member => ?_
        obtain ⟨front, back, split⟩ := List.append_of_mem member
        rw [← wf.originWithin?_eq split region]
        simp only [originWithin?]
        rw [if_neg]
        omega
      rw [none, Region.ofBounds, empty, Nat.sub_self]
      exact filter_origins?_of_empty layout _
    · rw [wf.origins?_of_ranks word (Nat.lt_of_le_of_ne order empty), Option.getD_some]
      exact solid
  · have none : layout.pairs.filterMap (·.within? region) = [] :=
      List.filterMap_eq_nil_iff.mpr fun pair member => Pair.within?_eq_none (far pair member)
    rw [shown, image, none]
    rfl

theorem parts_apart (wf : layout.WellFormed size) :
    (layout.pairs.filterMap (·.within? region)).Pairwise
      fun left right => left.stop < right.offset := by
  apply List.Pairwise.filterMap _ _ wf.apart
  intro left right order part leftPart other rightPart
  have := Pair.within?_eq_some leftPart
  have := Pair.within?_eq_some rightPart
  omega

theorem shows_iff_part (wf : layout.WellFormed size) {position : Nat}
    (above : region.offset ≤ position) (below : position < region.stop) :
    layout.Shows position ↔
      ∃ part ∈ layout.pairs.filterMap (·.within? region), part.Covers position := by
  constructor
  · rintro ⟨pair, member, live, start, stop⟩
    have room : max region.offset pair.fragment.offset < min region.stop pair.fragment.stop := by
      omega
    have part : pair.within? region = some (.ofBounds (max region.offset pair.fragment.offset)
        (min region.stop pair.fragment.stop)) := if_pos room
    have bounds := Pair.within?_eq_some part
    exact ⟨_, List.mem_filterMap.mpr ⟨pair, member, part⟩, by omega, by omega⟩
  · rintro ⟨part, member, start, stop⟩
    obtain ⟨pair, found, some⟩ := List.mem_filterMap.mp member
    have := Pair.within?_eq_some some
    exact ⟨pair, found, wf.live pair found, by omega, by omega⟩

/-- The parts of the fragments that lie in a region are the maximal runs of what is shown of it. -/
theorem runs_parts (wf : layout.WellFormed size) (region : Region) :
    Runs layout.Shows region.offset region.stop (layout.pairs.filterMap (·.within? region)) :=
  .of_apart (parts_inside _ _) wf.parts_apart fun _ above below => wf.shows_iff_part above below

/-- The shown parts of a region are the maximal runs of what the layout shows. -/
theorem runs_shown (wf : layout.WellFormed size)
    (word : region.stop < Offset.bound) :
    Runs layout.Shows region.offset region.stop (layout.shown region) := by
  obtain ⟨offset, length⟩ := region
  rcases Nat.eq_zero_or_pos length with rfl | nonempty
  · have none : layout.shown ⟨offset, 0⟩ = [] := by
      have stop : Region.stop? ⟨offset, 0⟩ = some offset := Region.stop?_eq word
      simp only [shown, nearestImage?, image?, stop, Region.isEmpty, Option.bind_eq_bind,
        Option.bind_some, beq_self_eq_true, if_true]
      cases layout.imageOffset? offset with
      | none => rfl
      | some image => exact layout.filter_origins?_of_empty image
    rw [none]
    exact fun position above below => absurd above (Nat.not_le.mpr below)
  · rw [wf.shown_eq nonempty word]
    exact wf.runs_parts _

theorem origins?_of_cover (wf : layout.WellFormed size) (word : region.stop < Offset.bound)
    (nonempty : 0 < region.length) (split : layout.pairs = front ++ pair :: back)
    (start : pair.fragment.offset ≤ region.offset) (stop : region.stop ≤ pair.fragment.stop) :
    layout.origins? (.ofBounds (layout.rank region.offset) (layout.rank region.stop)) =
      some [region] := by
  have room : region.offset < region.stop := Nat.lt_add_of_pos_right nonempty
  have before := wf.before split
  have after := wf.after split
  have rankStart := wf.rank_within split start (by omega)
  have rankStop := wf.rank_within split (Nat.le_trans start (Nat.le_of_lt room)) stop
  have first : front.filterMap (·.within? region) = [] :=
    List.filterMap_eq_nil_iff.mpr fun other member => Pair.within?_eq_none (.inl (by
      have := before other member
      omega))
  have last : back.filterMap (·.within? region) = [] :=
    List.filterMap_eq_nil_iff.mpr fun other member => Pair.within?_eq_none (.inr (by
      have := after other member
      omega))
  have length : region.stop - region.offset = region.length := Nat.add_sub_cancel_left ..
  have whole : pair.within? region = some region := by
    simp only [Pair.within?, Nat.max_eq_left start, Nat.min_eq_left stop, if_pos room,
      Region.ofBounds, length]
  rw [wf.origins?_of_ranks word (by omega), split, List.filterMap_append, first, List.filterMap_cons,
    whole, last]
  rfl

theorem origins?_of_shown (wf : layout.WellFormed size)
    (nonempty : 0 < region.length) (word : region.stop < Offset.bound)
    (shown : ∀ position, region.Covers position → layout.Shows position) :
    (layout.nearestImage? region).bind layout.origins? = some [region] := by
  obtain ⟨front, pair, back, split, start, stop⟩ :=
    wf.exists_cover nonempty fun position low high => shown position ⟨low, high⟩
  change region.stop ≤ pair.fragment.stop at stop
  have room : region.offset < region.stop := Nat.lt_add_of_pos_right nonempty
  rcases wf.nearestImage?_eq nonempty word with image | ⟨-, far⟩
  · rw [image, Option.bind_some, wf.origins?_of_cover word nonempty split start stop]
  · have := far pair (member_of_split split)
    omega

/-- The hidden parts of a region are the maximal runs of what the layout does not show. -/
theorem runs_hidden (wf : layout.WellFormed size)
    (word : region.stop < Offset.bound) :
    Runs (fun position => ¬ layout.Shows position) region.offset region.stop
      (layout.hidden region) := by
  have stop : region.stop? = some region.stop := Region.stop?_eq word
  rcases Nat.eq_zero_or_pos region.length with empty | nonempty
  · have none : layout.hidden region = [] := by simp [hidden, stop, Region.isEmpty, empty]
    rw [none]
    intro position above below
    unfold Region.stop at below
    omega
  · have solid := Region.isEmpty_eq_false nonempty
    have shown := wf.runs_shown word
    simp only [hidden, stop, solid, Bool.false_eq_true, if_false]
    refine (runs_gaps (shown.apart.imp Nat.le_of_lt) shown.inside).congr
      fun position above below => ?_
    rw [shown.covered above below]
    simp only [not_exists, not_and]

theorem length_hidden_le (wf : layout.WellFormed size) (word : region.stop < Offset.bound) :
    (layout.hidden region).length ≤ layout.size + 1 := by
  have stop : region.stop? = some region.stop := Region.stop?_eq word
  rcases Nat.eq_zero_or_pos region.length with empty | nonempty
  · simp [hidden, stop, Region.isEmpty, empty]
  · have solid := Region.isEmpty_eq_false nonempty
    have parts : (layout.pairs.filterMap (·.within? region)).length ≤ layout.size :=
      List.length_filterMap_le _ _
    have gaps := length_gaps_le region.offset region.stop
      (layout.pairs.filterMap (·.within? region))
    simp only [hidden, stop, solid, Bool.false_eq_true, if_false, wf.shown_eq nonempty word]
    omega

theorem hidden_cases (wf : layout.WellFormed size) (region : Region) :
    (layout.hidden region = [] ∧ (region.stop < Offset.bound →
        ∀ position, region.Covers position → layout.Shows position)) ∨
      ∃ gap rest, layout.hidden region = gap :: rest ∧ 0 < gap.length ∧
        region.offset ≤ gap.offset ∧ gap.stop ≤ region.stop ∧
        ∀ position, gap.Covers position → ¬ layout.Shows position := by
  by_cases word : region.stop < Offset.bound
  · have runs := wf.runs_hidden word
    cases found : layout.hidden region with
    | nil =>
      rw [found] at runs
      exact .inl ⟨rfl, fun _ position covers => not_not.mp (runs position covers.1 covers.2)⟩
    | cons gap rest =>
      rw [found] at runs
      obtain ⟨⟨nonempty, start, stop⟩, -, hidden, -⟩ := runs
      exact .inr ⟨gap, rest, rfl, nonempty, start, stop, hidden⟩
  · refine .inl ⟨?_, fun small => absurd small word⟩
    rw [hidden, Region.stop?_eq_none word]

theorem hidden_of_shown (wf : layout.WellFormed size)
    (shown : ∀ position, region.Covers position → layout.Shows position) :
    layout.hidden region = [] := by
  rcases wf.hidden_cases region with ⟨none, -⟩ | ⟨gap, _, -, nonempty, start, stop, unshown⟩
  · exact none
  · have first := Runs.covers_offset nonempty
    exact absurd (shown _ ⟨start, Nat.lt_of_lt_of_le first.2 stop⟩) (unshown _ first)

theorem hidden_tail {after : Layout} {gap : Region} {rest : List Region}
    (wf : layout.WellFormed size) (wfAfter : after.WellFormed size)
    (word : region.stop < Offset.bound) (hidden : layout.hidden region = gap :: rest)
    (shows : ∀ position, after.Shows position ↔ layout.Shows position ∨ gap.Covers position) :
    after.hidden region = rest := by
  have runs := wf.runs_hidden word
  rw [hidden] at runs
  refine (wfAfter.runs_hidden word).unique (runs.tail.congr fun position _ _ => ?_)
  rw [shows, not_or]

/-- The usual bound allows for all hidden parts of a region, whatever is shown of it. -/
theorem length_hidden_le_limit (wf : layout.WellFormed size)
    (word : region.stop < Offset.bound) :
    (layout.hidden region).length ≤ Bound.limit {} layout.size := by
  have few := wf.length_hidden_le word
  have short := (wf.runs_hidden word).length_le
  change _ ≤ max (min (2 * layout.size) (Offset.bound - 1)) 20
  omega

end WellFormed

end Layout

end TextProjection
