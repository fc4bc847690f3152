import TextProjection.Proofs.Layout.Parts
import TextProjection.Proofs.Layout.Translation
import TextProjection.Proofs.Projection.Plan

/-! Where a region of the projection comes from. Its origins lie one under each of some fragments, in
their order. They have images that follow one another and make up the region, so the text under them
is the text of the region.
-/

set_option autoImplicit false

namespace TextProjection

/-- Regions that follow one another from `start` to `stop`, none of them empty. -/
def Region.Consecutive : Nat → Nat → List Region → Prop
  | start, stop, [] => start = stop
  | start, stop, region :: rest =>
    region.offset = start ∧ 0 < region.length ∧ Consecutive region.stop stop rest

namespace Region.Consecutive

variable {start stop : Nat} {regions : List Region}

theorem le (consecutive : Consecutive start stop regions) : start ≤ stop := by
  induction regions generalizing start with
  | nil => exact Nat.le_of_eq consecutive
  | cons region rest ih =>
    obtain ⟨rfl, nonempty, tail⟩ := consecutive
    exact Nat.le_trans (Nat.le_add_right _ _) (ih tail)

theorem flatMap_slice (consecutive : Consecutive start stop regions) (text : Text) :
    regions.flatMap text.slice = text.slice (.ofBounds start stop) := by
  induction regions generalizing start with
  | nil =>
    obtain rfl : start = stop := consecutive
    simp [Text.slice, Region.ofBounds]
  | cons region rest ih =>
    obtain ⟨rfl, -, tail⟩ := consecutive
    have order : region.stop ≤ stop := tail.le
    have length : stop - region.offset = region.length + (stop - region.stop) := by
      unfold Region.stop at *
      omega
    rw [List.flatMap_cons, ih tail]
    simp only [Text.slice, Region.ofBounds, length, List.take_add, List.drop_drop, Region.stop]

end Region.Consecutive

namespace Layout

theorem exists_hosts (pairs : List Pair) (region : Region) :
    ∃ hosts : List Pair, hosts.Sublist pairs ∧
      List.Forall₂ (fun part pair => pair.fragment.offset ≤ part.offset ∧
        part.stop ≤ pair.fragment.stop) (pairs.filterMap (·.within? region)) hosts := by
  induction pairs with
  | nil => exact ⟨[], .slnil, .nil⟩
  | cons pair rest ih =>
    obtain ⟨hosts, sublist, within⟩ := ih
    rw [List.filterMap_cons]
    cases found : pair.within? region with
    | none => exact ⟨hosts, sublist.cons _, within⟩
    | some part =>
      have := Pair.within?_eq_some found
      exact ⟨pair :: hosts, sublist.cons_cons _, .cons (by omega) within⟩

theorem origins?_of_outside {layout : Layout} {image : Region}
    (outside : layout.imageStop < image.stop) : layout.origins? image = none := by
  cases stop : image.stop? with
  | none => simp [origins?, stop]
  | some limit =>
    obtain ⟨rfl, -⟩ : image.stop = limit ∧ _ := Offset.add?_eq_some_iff.mp stop
    simp [origins?, stop, outside]

namespace WellFormed

variable {layout : Layout} {size : Nat} {region image : Region} {low stop : Nat} {parts : List Region}

theorem image?_place (wf : layout.WellFormed size) (fits : size < Offset.bound)
    (nonempty : 0 < region.length)
    (shown : ∀ position, region.Covers position → layout.Shows position) :
    layout.image? region = some (layout.place region) ∧
      layout.rank region.offset < layout.rank region.stop := by
  obtain ⟨found, gained⟩ := wf.image?_of_shown fits nonempty shown
  have length : layout.rank region.stop - layout.rank region.offset = region.length := by omega
  exact ⟨by rw [found, place, Region.ofBounds, length], by omega⟩

theorem images_of_runs (wf : layout.WellFormed size) (fits : size < Offset.bound)
    (order : low ≤ stop) (runs : Runs layout.Shows low stop parts) :
    parts.map layout.image? = (parts.map layout.place).map some ∧
      Region.Consecutive (layout.rank low) (layout.rank stop) (parts.map layout.place) := by
  induction parts generalizing low with
  | nil => exact ⟨rfl, (rank_eq_of_hidden order runs).symm⟩
  | cons run rest ih =>
    obtain ⟨⟨nonempty, low_le, le_stop⟩, before, all, -, tail⟩ := runs
    obtain ⟨image, room⟩ := wf.image?_place fits nonempty all
    obtain ⟨images, consecutive⟩ := ih le_stop tail
    have start : layout.rank run.offset = layout.rank low := rank_eq_of_hidden low_le before
    have limit : (layout.place run).stop = layout.rank run.stop :=
      Nat.add_sub_of_le (Nat.le_of_lt room)
    refine ⟨?_, start, Nat.sub_pos_of_lt room, limit ▸ consecutive⟩
    rw [List.map_cons, List.map_cons, List.map_cons, image, images]

/-- The origins of a region are what is shown of its hull, and the hull starts and ends with shown
characters. -/
theorem exists_origins (wf : layout.WellFormed size) (fits : size < Offset.bound)
    (nonempty : 0 < image.length) (inside : image.stop ≤ layout.imageStop) :
    ∃ hull : Region, layout.hull? image = some hull ∧ hull.stop ≤ size ∧ 0 < hull.length ∧
      layout.Shows hull.offset ∧ layout.Shows (hull.stop - 1) ∧
      layout.rank hull.offset = image.offset ∧ layout.rank hull.stop = image.stop ∧
      layout.origins? image = some (layout.pairs.filterMap (·.within? hull)) := by
  have room : image.offset < image.stop := Nat.lt_add_of_pos_right nonempty
  have within := wf.imageStop_eq ▸ inside
  have some : layout.pairs ≠ [] := by
    rintro none
    rw [none, extent_nil] at within
    omega
  obtain ⟨start, stop, hull, first, -, solid, -, bound, -, startRank, stopRank⟩ :=
    wf.exists_hull fits some within
  obtain ⟨order, last⟩ := solid nonempty
  obtain ⟨length, rfl⟩ := Nat.exists_eq_add_of_le (Nat.le_of_lt order)
  rw [Nat.add_sub_cancel_left] at hull
  have shown := wf.shows_of_originOffset? first (Nat.lt_of_lt_of_le room inside)
  have shownLast := wf.shows_of_originOffset? last
    (Nat.lt_of_lt_of_le (Nat.sub_one_lt (Nat.ne_of_gt (Nat.zero_lt_of_lt room))) inside)
  have same : image = .ofBounds (layout.rank start) (layout.rank (start + length)) := by
    rw [startRank, stopRank, Region.ofBounds, Nat.add_sub_cancel_left]
  have gained : layout.rank (Region.mk start length).offset <
      layout.rank (Region.mk start length).stop := by
    change layout.rank start < layout.rank (start + length)
    rw [startRank, stopRank]
    exact room
  refine ⟨⟨start, length⟩, hull, bound, Nat.pos_of_lt_add_right order, shown, shownLast, startRank,
    stopRank, ?_⟩
  rw [same]
  exact wf.origins?_of_ranks (Nat.lt_of_le_of_lt bound fits) gained

end WellFormed

end Layout

namespace Projection

/-- The regions are the origins of a region of the projection. -/
structure Origins (projection : Projection) (master : Text) (image : Region) (parts : List Region) :
    Prop where
  nonempty : ∀ part ∈ parts, 0 < part.length
  apart : parts.Pairwise fun left right => left.stop < right.offset
  /-- There is at most one under each fragment. -/
  within : ∃ hosts : List Pair, hosts.Sublist projection.layout.pairs ∧
    List.Forall₂ (fun part pair => pair.fragment.offset ≤ part.offset ∧
      part.stop ≤ pair.fragment.stop) parts hosts
  images : ∃ images, parts.map projection.layout.image? = images.map some ∧
    Region.Consecutive image.offset image.stop images
  text : projection.get image = .ok (parts.flatMap master.slice)
  hull : ∃ first last, parts.head? = some first ∧ parts.getLast? = some last ∧
    projection.layout.hull? image = some (.ofBounds first.offset last.stop)

namespace WellFormed

variable {projection : Projection} {master : Text} {low stop : Nat} {parts : List Region}

theorem flatMap_slice_of_runs (wf : projection.WellFormed master)
    (runs : Runs projection.layout.Shows low stop parts) (bound : stop ≤ master.length) :
    (parts.map projection.layout.place).flatMap projection.text.slice =
      parts.flatMap master.slice := by
  rw [List.flatMap_map]
  refine List.flatMap_congr fun part member => ?_
  obtain ⟨-, above, below⟩ := runs.inside part member
  refine wf.slice_place_of_shown (Region.inside_iff.mpr (Nat.le_trans below bound))
    fun position covers => ?_
  exact (runs.covered (Nat.le_trans above covers.1) (Nat.lt_of_lt_of_le covers.2 below)).mpr
    ⟨part, member, covers⟩

theorem origins_spec (wf : projection.WellFormed master) (fits : master.length < Offset.bound)
    {image : Region} (nonempty : 0 < image.length)
    (inside : image.stop ≤ projection.layout.imageStop) :
    ∃ parts, projection.layout.origins? image = some parts ∧ projection.Origins master image parts := by
  obtain ⟨hull, found, bound, solid, first, last, startRank, stopRank, origins⟩ :=
    wf.layout.exists_origins fits nonempty inside
  have room : hull.offset < hull.stop := Nat.lt_add_of_pos_right solid
  have runs := wf.layout.runs_parts hull
  obtain ⟨images, consecutive⟩ := wf.layout.images_of_runs fits (Nat.le_of_lt room) runs
  rw [startRank, stopRank] at consecutive
  obtain ⟨head, headFound, start⟩ := runs.exists_first room first
  obtain ⟨final, finalFound, stop⟩ := runs.exists_last room last
  have length : projection.length = projection.layout.imageStop := by
    rw [wf.layout.imageStop_eq, wf.length_eq]
  have within : projection.outside? image = none :=
    Region.outside?_eq_none_iff.mpr (Region.inside_iff.mpr (length ▸ inside))
  refine ⟨_, origins, fun part member => (runs.inside part member).1, runs.apart,
    Layout.exists_hosts _ _, ⟨_, images, consecutive⟩, ?text, head, final, headFound, finalFound, ?hull⟩
  case text =>
    rw [get, within, ← wf.flatMap_slice_of_runs runs bound, consecutive.flatMap_slice]
    simp [Region.ofBounds, Region.stop]
  case hull =>
    rw [found, start, stop]
    simp [Region.ofBounds, Region.stop]

/-- A region of the projection is made up of its origins, and a region inside a fragment is all that its
image comes from. -/
theorem origins_faithful (wf : projection.WellFormed master) (fits : master.length < Offset.bound) :
    (∀ image : Region, 0 < image.length →
      ((projection.layout.origins? image).isSome ↔ image.stop ≤ projection.layout.imageStop) ∧
      ∀ parts, projection.layout.origins? image = some parts →
        projection.Origins master image parts) ∧
    ∀ pair ∈ projection.layout.pairs, ∀ region : Region, 0 < region.length →
      pair.fragment.offset ≤ region.offset → region.stop ≤ pair.fragment.stop →
      (projection.layout.image? region).bind projection.layout.origins? = some [region] := by
  constructor
  · intro image nonempty
    by_cases inside : image.stop ≤ projection.layout.imageStop
    · obtain ⟨parts, found, origins⟩ := wf.origins_spec fits nonempty inside
      rw [found]
      exact ⟨iff_of_true rfl inside, fun _ same => Option.some.inj same ▸ origins⟩
    · rw [Layout.origins?_of_outside (Nat.lt_of_not_le inside)]
      exact ⟨iff_of_false Bool.false_ne_true inside, by simp⟩
  · intro pair member region nonempty start stop
    obtain ⟨front, back, split⟩ := List.append_of_mem member
    have word : region.stop < Offset.bound :=
      Nat.lt_of_le_of_lt stop (wf.layout.stop_lt_of_split fits split)
    rw [wf.layout.image?_of_cover word split nonempty start stop, Option.bind_some,
      ← wf.layout.place_of_cover split start stop]
    exact wf.layout.origins?_of_cover word nonempty split start stop

/-- Three characters in the middle of a projection come from the end of one fragment and the start of
the next one. -/
theorem origins_faithful_twoApart :
    let projection : Projection := { layout := Layout.twoApart, text := ['c', 'd', 'e', 'h', 'i'] }
    projection.Origins ['a', 'b', 'c', 'd', 'e', 'f', 'g', 'h', 'i', 'j'] ⟨1, 3⟩ [⟨3, 2⟩, ⟨7, 1⟩] ∧
      (projection.layout.image? ⟨7, 2⟩).bind projection.layout.origins? = some [⟨7, 2⟩] := by
  intro projection
  have wf : projection.WellFormed ['a', 'b', 'c', 'd', 'e', 'f', 'g', 'h', 'i', 'j'] :=
    ⟨Layout.twoApart_wellFormed, by decide⟩
  obtain ⟨origins, whole⟩ := wf.origins_faithful (by decide)
  exact ⟨(origins ⟨1, 3⟩ (by decide)).2 _ (by decide),
    whole ⟨⟨7, 2, false⟩, ⟨3, 2, false⟩⟩ (by decide) ⟨7, 2⟩ (by decide) (by decide) (by decide)⟩

end WellFormed

end Projection

end TextProjection
