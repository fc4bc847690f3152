import TextProjection.Proofs.Layout.Drift
import TextProjection.Proofs.Layout.Meeting
import TextProjection.Proofs.Projection.Plan

/-! A well-formed projection and the edits of its master. What will become of its text can be
foreseen, and after the fragments have followed the edit it is the text under them.
-/

set_option autoImplicit false

namespace TextProjection

def Edit.result (edit : Edit) (text : Text) : Text := text.splice edit.region edit.text

theorem Edit.splice_fits {edit : Edit} {text : Text} (fits : text.length < Offset.bound)
    (inside : edit.region.Inside text.length) (fitsAfter : (edit.result text).length < Offset.bound) :
    edit.splice.Fits text.length where
  size_lt := fits
  removed_le := Region.inside_iff.mp inside
  size_after_lt := by
    rw [result, Text.length_splice inside] at fitsAfter
    exact fitsAfter

namespace Layout

/-- Which characters are shown after an edit, as the layout shows them before. -/
def ShowsAfter (layout : Layout) (edit : Edit) (position : Nat) : Prop :=
  if position < edit.region.offset then layout.Shows position
  else if position < edit.region.offset + edit.text.length then layout.Admits edit.region.offset
  else layout.Shows (position - edit.text.length + edit.region.length)

/-- Outside of a region that was replaced, the same is shown as before. -/
structure SameOutside (before after : Layout) (region : Region) (text : Text) : Prop where
  below : ∀ position < region.offset, after.Shows position ↔ before.Shows position
  above : ∀ i, after.Shows (region.offset + text.length + i) ↔
    before.Shows (region.offset + region.length + i)

/-- The change is what an edit will do to the projection. There is none only if the edit can
neither remove nor insert anything there. -/
def Foresees (layout : Layout) (edit : Edit) : Option Change → Prop
  | none => ¬ layout.Admits edit.region.offset ∧
      ∀ position, edit.region.Covers position → ¬ layout.Shows position
  | some change => layout.Admits edit.region.offset ∧ change.image = layout.place edit.region ∧
      change.text = edit.text ∧ change.kind = .content ∧ change.edit = some edit

/-- The master region that stands behind a region of the projection, from the origin of its
first character to that of its last one. Without fragments it is the start of the master. -/
structure Originates (layout : Layout) (image origin : Region) : Prop where
  start : (layout.pairs = [] ∧ origin.offset = 0) ∨
    layout.originOffset? image.offset = some origin.offset
  empty : image.length = 0 → origin.length = 0
  last : 0 < image.length →
    0 < origin.length ∧ layout.originOffset? (image.stop - 1) = some (origin.stop - 1)

variable {layout after : Layout} {size : Nat} {edit : Edit}

theorem sameOutside_of_showsAfter
    (shows : ∀ position, after.Shows position ↔ layout.ShowsAfter edit position) :
    layout.SameOutside after edit.region edit.text where
  below position below := by rw [shows, ShowsAfter, if_pos below]
  above i := by
    have carried : edit.region.offset + edit.text.length + i - edit.text.length +
        edit.region.length = edit.region.offset + edit.region.length + i := by omega
    rw [shows, ShowsAfter, if_neg (by omega), if_neg (by omega), carried]

theorem shows_inserted
    (shows : ∀ position, after.Shows position ↔ layout.ShowsAfter edit position) {i : Nat}
    (below : i < edit.text.length) :
    after.Shows (edit.region.offset + i) ↔ layout.Admits edit.region.offset := by
  rw [shows, ShowsAfter, if_neg (by omega), if_pos (by omega)]

namespace WellFormed

/-- What is shown of the text after an edit follows from what was foreseen. -/
theorem pick_result {text : Text} {change : Option Change}
    (inside : edit.region.Inside text.length)
    (shows : ∀ position, after.Shows position ↔ layout.ShowsAfter edit position)
    (foreseen : layout.Foresees edit change) :
    (edit.result text).pick after.Shows =
      change.elim (text.pick layout.Shows)
        fun change => (text.pick layout.Shows).splice change.image change.text := by
  have spliced : Text.pick after.Shows (text.splice edit.region edit.text) =
      (text.pick layout.Shows).splice (layout.place edit.region)
        (Text.pick (fun i => after.Shows (edit.region.offset + i)) edit.text) := by
    have same := sameOutside_of_showsAfter shows
    apply Text.pick_splice_shows inside
    · exact same.below
    · exact same.above
  rw [Edit.result, spliced]
  cases change with
  | none =>
    obtain ⟨refused, hidden⟩ := foreseen
    -- Nothing that is shown is removed, and nothing that is inserted is shown.
    have none : Text.pick (fun i => after.Shows (edit.region.offset + i)) edit.text = [] :=
      Text.pick_of_forall_not fun i below => mt (shows_inserted shows below).mp refused
    have counted := Nat.count_add layout.Shows edit.region.offset edit.region.length
    have free : Nat.count (fun i => layout.Shows (edit.region.offset + i)) edit.region.length = 0 :=
      Nat.count_of_forall_not fun i below =>
        hidden _ ⟨Nat.le_add_right _ _, Nat.add_lt_add_left below _⟩
    have same : layout.rank edit.region.stop = layout.rank edit.region.offset := by
      rw [free, Nat.add_zero] at counted
      exact counted
    rw [none, place, same, Region.ofBounds, Nat.sub_self, Text.splice_empty]
    rfl
  | some change =>
    obtain ⟨admits, image, same, -⟩ := foreseen
    have all : Text.pick (fun i => after.Shows (edit.region.offset + i)) edit.text = edit.text :=
      Text.pick_of_forall fun i below => (shows_inserted shows below).mpr admits
    rw [all, Option.elim_some, image, same]

theorem follow {text : Text} (wf : layout.WellFormed text.length)
    (inside : edit.region.Inside text.length) :
    ((layout.drift edit.splice .lastGrows).normalForm edit.region.offset).WellFormed
        (edit.result text).length ∧
      ∀ position, ((layout.drift edit.splice .lastGrows).normalForm edit.region.offset).Shows
        position ↔ layout.ShowsAfter edit position := by
  have length : (edit.result text).length =
      text.length - edit.region.length + edit.text.length := Text.length_splice inside edit.text
  rw [length]
  exact wf.drift_normalForm (Region.inside_iff.mp inside)

end WellFormed

end Layout

namespace Projection

variable {projection : Projection} {master : Text} {edit : Edit}

def readFrom (projection : Projection) (master : Text) : Projection :=
  { projection with text := projection.layout.textUnder master }

theorem untouched_of_mustNot (mustNot : projection.mustShow edit = false) :
    projection.isTouchedBy edit = false := by
  simp only [mustShow, Bool.or_eq_false_iff] at mustNot
  exact mustNot.1

namespace WellFormed

theorem follow (wf : projection.WellFormed master) (inside : edit.region.Inside master.length) :
    ((projection.follow edit).readFrom (edit.result master)).WellFormed (edit.result master) ∧
      ∀ position, (projection.follow edit).layout.Shows position ↔
        projection.layout.ShowsAfter edit position := by
  obtain ⟨layout, shows⟩ := wf.layout.follow inside
  exact ⟨⟨layout, rfl⟩, shows⟩

theorem textUnder_follow (wf : projection.WellFormed master)
    (inside : edit.region.Inside master.length)
    {change : Option Change}
    (foreseen : projection.layout.Foresees edit change) :
    (projection.follow edit).layout.textUnder (edit.result master) =
      change.elim projection.text fun change => projection.text.splice change.image change.text := by
  obtain ⟨after, shows⟩ := wf.follow inside
  have picked : (projection.follow edit).layout.textUnder (edit.result master) =
      (edit.result master).pick (projection.follow edit).layout.Shows :=
    after.layout.textUnder_eq_pick
  rw [picked, wf.text_eq_pick]
  exact Layout.WellFormed.pick_result inside shows foreseen

/-- A change that was foreseen makes the text the one that is under the fragments. -/
theorem patch_follow (wf : projection.WellFormed master)
    (inside : edit.region.Inside master.length)
    {change : Option Change}
    (foreseen : projection.layout.Foresees edit change) :
    (projection.follow edit).patch change =
      .done ((projection.follow edit).readFrom (edit.result master)) := by
  obtain ⟨after, -⟩ := wf.follow inside
  have text := wf.textUnder_follow inside foreseen
  have checked := after.checked_eq
  simp only [readFrom, text] at checked ⊢
  cases change with
  | none => exact checked
  | some change =>
    have bound := wf.rank_le edit.region.stop
    have order : projection.layout.rank edit.region.offset ≤
        projection.layout.rank edit.region.stop := Nat.count_monotone _ (Nat.le_add_right _ _)
    have limit : (projection.layout.place edit.region).stop =
        projection.layout.rank edit.region.stop := Nat.add_sub_of_le order
    have stop : change.image.stop = projection.layout.rank edit.region.stop := by
      rw [foreseen.2.1, limit]
    -- The text is still the old one, and the image was computed for it.
    have within : ¬ (projection.follow edit).length < change.image.stop := by
      rw [stop]
      exact Nat.not_lt.mpr bound
    simp only [patch, if_neg within]
    exact checked

theorem reread_eq {master : Master} (wf : projection.layout.WellFormed master.length) :
    projection.reread master = .ok (projection.layout.textUnder master.text) := by
  have none : (projection.layout.fragments.find? fun fragment =>
      ¬ fragment.Inside master.length) = none := by
    refine List.find?_eq_none.mpr fun fragment member => ?_
    obtain ⟨pair, found, rfl⟩ := List.mem_map.mp member
    simpa using Region.inside_iff.mpr (wf.inside pair found)
  simp only [reread, none]

/-! Foreseeing -/

theorem imageOf?_of_shown (wf : projection.WellFormed master) (fits : master.length < Offset.bound)
    (nonempty : 0 < edit.region.length)
    (shown : ∀ position, edit.region.Covers position → projection.layout.Shows position) :
    projection.imageOf? edit = some ⟨.content, projection.layout.place edit.region, edit.text,
        edit.region, some edit⟩ ∧
      projection.layout.Admits edit.region.offset := by
  obtain ⟨front, pair, back, split, start, stop⟩ :=
    wf.layout.exists_cover nonempty fun position low high => shown position ⟨low, high⟩
  have word := Nat.lt_of_le_of_lt stop (wf.layout.stop_lt_of_split fits split)
  have image := wf.layout.image?_of_cover word split nonempty start stop
  have startRank := wf.layout.rank_within split start (by omega)
  have stopRank := wf.layout.rank_within split (Nat.le_trans start (Nat.le_add_right _ _)) stop
  have length : projection.layout.rank edit.region.stop -
      projection.layout.rank edit.region.offset = edit.region.length := by
    unfold Region.stop
    omega
  constructor
  · rw [Layout.place, Region.ofBounds, length]
    exact congrArg (Option.map _) image
  · exact .inl (shown _ ⟨Nat.le_refl _, Nat.lt_add_of_pos_right nonempty⟩)

theorem imageOf?_of_insertion (wf : projection.WellFormed master)
    (fits : master.length < Offset.bound) (inside : edit.region.Inside master.length)
    (empty : edit.region.length = 0) :
    projection.layout.Foresees edit (projection.imageOf? edit) ∧
      ∀ change, projection.imageOf? edit = some change →
        change = ⟨.content, projection.layout.place edit.region, edit.text, edit.region,
          some edit⟩ := by
  have bound : edit.region.stop ≤ master.length := Region.inside_iff.mp inside
  have still : edit.region.stop = edit.region.offset := by
    unfold Region.stop
    omega
  have place : projection.layout.place edit.region =
      ⟨projection.layout.rank edit.region.offset, 0⟩ := by
    rw [Layout.place, still, Region.ofBounds, Nat.sub_self]
  have noneCovered (position : Nat) : ¬ edit.region.Covers position := by
    unfold Region.Covers
    omega
  have image := projection.layout.image?_of_empty (Nat.lt_of_le_of_lt bound fits) empty
  by_cases admits : projection.layout.Admits edit.region.offset
  · have found : projection.imageOf? edit = some ⟨.content, projection.layout.place edit.region,
        edit.text, edit.region, some edit⟩ := by
      rw [imageOf?, image, wf.layout.imageOffset?_of_admits admits, place]
      rfl
    rw [found]
    exact ⟨⟨admits, rfl, rfl, rfl, rfl⟩, fun change same => (Option.some.inj same).symm⟩
  · have none : projection.imageOf? edit = none := by
      rw [imageOf?, image, wf.layout.imageOffset?_eq_none admits]
      rfl
    rw [none]
    exact ⟨⟨admits, fun position covers => absurd covers (noneCovered position)⟩,
      fun _ found => by cases found⟩

theorem imageOf?_of_hidden (wf : projection.WellFormed master)
    (nonempty : 0 < edit.region.length)
    (refused : ¬ projection.layout.Admits edit.region.offset) :
    projection.imageOf? edit = none := by
  rcases Layout.held_or_between wf.layout.apart edit.region.offset with
    ⟨front, pair, back, split, holds⟩ | ⟨front, back, split, between⟩
  · exact absurd (wf.layout.admits_of_holds split holds) refused
  · have image := Layout.image?_of_between split between nonempty
    exact congrArg (Option.map _) image

/-! Touching -/

/-- Inside a text that can be addressed it can be told whether an edit touches the projection: it does
where it meets a fragment and right after the last one. -/
theorem exists_isTouchedBy? (wf : projection.WellFormed master) (fits : master.length < Offset.bound)
    (word : edit.region.stop < Offset.bound) :
    ∃ touched, projection.isTouchedBy? edit = some touched ∧ (touched = true ↔
      (∃ pair ∈ projection.layout.pairs, pair.fragment.Meets edit.region) ∨
        ∃ last, projection.layout.pairs.getLast? = some last ∧ 0 < last.fragment.length ∧
          last.fragment.stop = edit.region.offset) := by
  have meeting : (!(projection.layout.pairs.filter (·.fragment.Meets edit.region)).isEmpty) = true ↔
      ∃ pair ∈ projection.layout.pairs, pair.fragment.Meets edit.region := by
    rw [Bool.not_eq_true', List.isEmpty_eq_false_iff_exists_mem]
    simp only [List.mem_filter, decide_eq_true_eq]
  rw [isTouchedBy?, wf.layout.meeting?_eq_filter fits word, Option.bind_eq_bind, Option.bind_some]
  cases found : projection.layout.pairs.getLast? with
  | none => exact ⟨_, rfl, by rw [meeting]; simp⟩
  | some last =>
    have stop : last.fragment.stop? = some last.fragment.stop :=
      Interval.stop?_eq (Nat.lt_of_le_of_lt (wf.layout.inside last (List.mem_of_getLast? found)) fits)
    have limit : last.fragment.stop = last.fragment.offset + last.fragment.length := rfl
    simp only [stop, Option.map_some]
    split
    · next behind =>
      refine ⟨_, rfl, ?_⟩
      have none : ¬ ∃ pair ∈ projection.layout.pairs, pair.fragment.Meets edit.region := by
        rw [← meeting]
        simp [behind.1]
      simp only [none, false_or, beq_iff_eq, Option.some.injEq, exists_eq_left']
      omega
    · next behind =>
      refine ⟨_, rfl, meeting.trans (or_iff_left_of_imp ?_).symm⟩
      rintro ⟨_, same, solid, touches⟩
      obtain rfl := Option.some.inj same
      rw [← meeting, Bool.not_eq_true', ← Bool.not_eq_true]
      exact fun empty => behind ⟨empty, by omega⟩

theorem isTouchedBy_iff (wf : projection.WellFormed master) (fits : master.length < Offset.bound)
    (word : edit.region.stop < Offset.bound) :
    projection.isTouchedBy edit = true ↔
      (∃ pair ∈ projection.layout.pairs, pair.fragment.Meets edit.region) ∨
        ∃ last, projection.layout.pairs.getLast? = some last ∧ 0 < last.fragment.length ∧
          last.fragment.stop = edit.region.offset := by
  obtain ⟨touched, found, iff⟩ := wf.exists_isTouchedBy? fits word
  rw [isTouchedBy, found, Option.getD_some, iff]

theorem hidden_of_not_touched (wf : projection.WellFormed master)
    (fits : master.length < Offset.bound) (inside : edit.region.Inside master.length)
    (untouched : projection.isTouchedBy edit = false) :
    ¬ projection.layout.Admits edit.region.offset ∧
      ∀ position, edit.region.Covers position → ¬ projection.layout.Shows position := by
  have word : edit.region.stop < Offset.bound := Region.stop_lt_of_inside inside fits
  have apart : ¬ _ := mt (wf.isTouchedBy_iff fits word).mpr (by simp [untouched])
  obtain ⟨meets, ends⟩ := not_or.mp apart
  have limits (pair : Pair) : pair.fragment.stop = pair.fragment.offset + pair.fragment.length :=
    rfl
  have regionLimit : edit.region.stop = edit.region.offset + edit.region.length := rfl
  constructor
  · rintro (⟨pair, member, -, start, stop⟩ | ⟨last, found, limit⟩)
    · refine meets ⟨pair, member, ?_⟩
      have := limits pair
      unfold Interval.Meets
      split_ifs <;> omega
    · by_cases solid : 0 < last.fragment.length
      · exact ends ⟨last, found, solid, limit⟩
      · refine meets ⟨last, List.mem_of_getLast? found, ?_⟩
        have := limits last
        unfold Interval.Meets
        split_ifs <;> omega
  · rintro position ⟨low, high⟩ ⟨pair, member, -, start, stop⟩
    refine meets ⟨pair, member, ?_⟩
    have := limits pair
    unfold Interval.Meets
    split_ifs <;> omega

theorem admits_of_touched (wf : projection.WellFormed master) (fits : master.length < Offset.bound)
    (inside : edit.region.Inside master.length) (empty : edit.region.length = 0)
    (touched : projection.isTouchedBy edit = true) :
    projection.layout.Admits edit.region.offset := by
  have word : edit.region.stop < Offset.bound := Region.stop_lt_of_inside inside fits
  rcases (wf.isTouchedBy_iff fits word).mp touched with ⟨pair, member, meets⟩ | ⟨last, found, -, limit⟩
  · obtain ⟨front, back, split⟩ := List.append_of_mem member
    refine wf.layout.admits_of_holds split ?_
    unfold Interval.Meets at meets
    unfold Interval.Holds
    split_ifs at meets <;> omega
  · exact .inr ⟨last, found, limit⟩

end WellFormed

/-! Seeding -/

/-- Seeding gives a projection without fragments one that is empty, and only for the sake of
an insertion. -/
theorem seeded_cases (projection : Projection) (edit : Edit) :
    (projection.layout.pairs = [] ∧ edit.region.length = 0 ∧
      projection.seeded edit =
        { projection with layout := ⟨[⟨⟨0, 0, false⟩, ⟨0, 0, false⟩⟩]⟩ }) ∨
      ((projection.layout.pairs ≠ [] ∨ edit.region.length ≠ 0) ∧
        projection.seeded edit = projection) := by
  unfold seeded
  split
  · next blank =>
    exact .inl ⟨by simpa [Layout.isEmpty] using blank.1, blank.2, rfl⟩
  · next other =>
    exact .inr ⟨(not_and_or.mp other).imp_left (by simp [Layout.isEmpty]), rfl⟩

theorem seeded_of_some {projection : Projection} {edit : Edit}
    (some : projection.layout.pairs ≠ [] ∨ 0 < edit.region.length) :
    projection.seeded edit = projection := by
  rcases seeded_cases projection edit with ⟨none, empty, -⟩ | ⟨-, same⟩
  · rcases some with some | nonempty
    · exact absurd none some
    · exact absurd empty nonempty.ne'
  · exact same

theorem seeded_eq (projection : Projection) (edit : Edit) :
    projection.seeded edit =
      { projection with layout := (projection.seeded edit).layout } := by
  rcases seeded_cases projection edit with ⟨-, -, same⟩ | ⟨-, same⟩ <;> rw [same]

theorem seeded_outgoing (projection : Projection) (edit : Edit) (outgoing : Outgoing) :
    { projection with outgoing }.seeded edit = { projection.seeded edit with outgoing } := by
  unfold seeded
  split <;> rfl

namespace WellFormed

theorem seeded (wf : projection.WellFormed master) (edit : Edit) :
    (projection.seeded edit).WellFormed master := by
  rcases seeded_cases projection edit with ⟨none, -, same⟩ | ⟨-, same⟩
  · have text : projection.text = [] := by
      rw [wf.text_eq, Layout.textUnder, Layout.fragments, none]
      rfl
    rw [same]
    refine ⟨⟨by simp, by simp [Layout.Tiles], List.pairwise_singleton _ _, by simp [Layout.size],
      by simp [Interval.stop]⟩, ?_⟩
    simp [text, Layout.textUnder, Layout.fragments, Text.slice, Interval.region]
  · rw [same]
    exact wf

theorem shows_seeded (edit : Edit) (position : Nat) :
    (projection.seeded edit).layout.Shows position ↔ projection.layout.Shows position := by
  rcases seeded_cases projection edit with ⟨none, -, same⟩ | ⟨-, same⟩
  · rw [same]
    simp [Layout.Shows, none, Interval.Covers, Interval.stop]
  · rw [same]

theorem admits_seeded (edit : Edit) (position : Nat) :
    (projection.seeded edit).layout.Admits position ↔ projection.layout.Admits position ∨
      projection.layout.pairs = [] ∧ edit.region.length = 0 ∧ position = 0 := by
  rcases seeded_cases projection edit with ⟨none, empty, same⟩ | ⟨some, same⟩
  · rw [same]
    simp [Layout.Admits, Layout.Shows, none, empty, Interval.Covers, Interval.stop, eq_comm]
  · rw [same]
    refine (or_iff_left fun other => ?_).symm
    rcases some with some | some
    · exact some other.1
    · exact some other.2.1

end WellFormed

/-! Forwarding -/

theorem beginForwarding_ok {forwarding : Projection} {image origin : Region} {text : Text}
    (begins : projection.beginForwarding image text = .ok (origin, forwarding)) :
    projection.refuses? = none ∧ image.Inside projection.length ∧
      forwarding = { projection with
        outgoing := .forwarding (some ⟨.content, image, text, origin, none⟩) } := by
  unfold beginForwarding at begins
  split at begins
  · cases begins
  · next allowed =>
    obtain ⟨ready, inside⟩ := Option.or_eq_none_iff.mp allowed
    simp only at begins
    split at begins
    · cases begins
    · cases begins
      exact ⟨ready, Region.outside?_eq_none_iff.mp inside, rfl⟩

/-- An edit inside the projection is turned into one of the master that will have just the
wanted effect. -/
theorem WellFormed.exists_beginForwarding (wf : projection.WellFormed master)
    (fits : master.length < Offset.bound) (ready : projection.refuses? = none) {image : Region}
    (inside : image.Inside projection.length) (text : Text) :
    ∃ origin, projection.beginForwarding image text = .ok (origin, { projection with
        outgoing := .forwarding (some ⟨.content, image, text, origin, none⟩) }) ∧
      origin.Inside master.length ∧ projection.layout.Originates image origin ∧
      ∀ edit : Edit, edit.region = origin → (projection.seeded edit).layout.Admits origin.offset ∧
        (projection.seeded edit).layout.place origin = image := by
  have within : projection.outside? image = none := Region.outside?_eq_none_iff.mpr inside
  have size := wf.length_eq
  have bound := Region.inside_iff.mp inside
  by_cases blank : projection.layout.pairs = []
  · have empty : projection.layout.isEmpty = true := by simp [Layout.isEmpty, blank]
    rw [size, blank, Layout.extent_nil] at bound
    -- The text is empty, and seeding lets an insertion in at the start of the master.
    obtain rfl : image = ⟨0, 0⟩ := by
      cases image
      simp only [Region.mk.injEq] at bound ⊢
      omega
    refine ⟨⟨0, 0⟩, ?_, by simp [Region.Inside], ⟨.inl ⟨blank, rfl⟩, fun _ => rfl, nofun⟩,
      fun edit same => ⟨?_, ?_⟩⟩
    · simp only [beginForwarding, ready, within, Option.or_none, empty, if_true]
    · exact (WellFormed.admits_seeded edit 0).mpr (.inr ⟨blank, by rw [same], rfl⟩)
    · simp [Layout.place, Layout.rank, Region.stop, Region.ofBounds]
  · have solid : projection.layout.isEmpty = false := by simpa [Layout.isEmpty] using blank
    rw [size] at bound
    obtain ⟨start, stop, hull, first, whenEmpty, whenSolid, order, stopInside, admits, startRank,
      stopRank⟩ := wf.layout.exists_hull fits blank bound
    have limit : Region.stop ⟨start, stop - start⟩ = stop := Nat.add_sub_of_le order
    refine ⟨⟨start, stop - start⟩, ?_, Region.inside_iff.mpr (limit.le.trans stopInside),
      ⟨.inr first, fun empty => ?_, fun solid => ?_⟩, fun edit same => ⟨?_, ?_⟩⟩
    · simp only [beginForwarding, ready, within, Option.or_none, solid, Bool.false_eq_true, if_false,
        hull]
    · exact Nat.sub_eq_zero_of_le (whenEmpty empty).le
    · obtain ⟨before, last⟩ := whenSolid solid
      rw [limit]
      exact ⟨Nat.sub_pos_of_lt before, last⟩
    · exact (WellFormed.admits_seeded edit start).mpr (.inl admits)
    · have unseeded : projection.seeded edit = projection := seeded_of_some (.inl blank)
      have length : image.offset + image.length - image.offset = image.length :=
        Nat.add_sub_cancel_left ..
      rw [unseeded, Layout.place, limit, startRank, stopRank, Region.ofBounds, length]

end Projection

end TextProjection
