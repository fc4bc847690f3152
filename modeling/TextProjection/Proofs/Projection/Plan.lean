import TextProjection.Proofs.Layout.Reshape
import TextProjection.Proofs.Master

/-! Range changes of a well-formed projection. What was planned can be carried out as long
as the projection is the one that the plan was made for, and leaves it well-formed.
-/

set_option autoImplicit false

namespace TextProjection

/-- Where the shown characters of a master region stand in the projection. -/
def Layout.place (layout : Layout) (region : Region) : Region :=
  .ofBounds (layout.rank region.offset) (layout.rank region.stop)

def Planned.Shows (planned : Planned) (before : Nat → Prop) (position : Nat) : Prop :=
  match planned.action with
  | .cut _ => before position ∧ ¬ planned.change.origin.Covers position
  | .reset => planned.change.origin.Covers position
  | _ => before position ∨ planned.change.origin.Covers position

theorem Planned.shows_of_fills {planned : Planned} (fills : planned.action.Fills)
    {before : Nat → Prop} {position : Nat} :
    planned.Shows before position ↔ before position ∨ planned.change.origin.Covers position := by
  obtain ⟨action, change⟩ := planned
  cases action <;> first | exact Iff.rfl | exact fills.elim

section
variable {planned : Planned} {text : Text}

theorem Planned.textAfter_of_fills (fills : planned.action.Fills)
    (empty : planned.change.image.length = 0) (bound : planned.change.image.offset ≤ text.length) :
    planned.textAfter text = .ok (text.splice planned.change.image planned.change.text) := by
  obtain ⟨action, ⟨_, ⟨offset, length⟩, _, _, _⟩⟩ := planned
  simp only at empty bound
  subst empty
  cases action <;> first | exact if_neg (Nat.not_lt.mpr bound) | exact fills.elim

theorem Planned.textAfter_of_cut {index : Nat} (cuts : planned.action = .cut index)
    (bound : planned.change.image.stop ≤ text.length) :
    planned.textAfter text = .ok (text.splice planned.change.image []) := by
  simp only [textAfter, cuts]
  exact if_neg (Nat.not_lt.mpr bound)

end

inductive Planned.Current (layout : Layout) (master : Text) : Planned → Prop
  | fill {gap : Region} {action : Action} (isGap : layout.IsGap master.length gap)
      (found : layout.fillAction? gap = some action) (edit : Option Edit) :
      Planned.Current layout master
        ⟨action, .projection, ⟨layout.rank gap.offset, 0⟩, master.slice gap, gap, edit⟩
  | removal {front back : List Pair} {pair : Pair} {region : Region}
      (split : layout.pairs = front ++ pair :: back)
      (start : pair.fragment.offset ≤ region.offset) (stop : region.stop ≤ pair.fragment.stop) :
      Planned.Current layout master
        ⟨.cut front.length, .projection, ⟨layout.rank region.offset, region.length⟩, [], region,
          none⟩
  | reset {region : Region} (inside : region.Inside master.length) :
      Planned.Current layout master
        ⟨.reset, .projection, ⟨0, Layout.extent layout.pairs⟩, master.slice region, region, none⟩

namespace Layout.IsGap

variable {layout : Layout} {size : Nat} {gap : Region}

theorem rank_stop (isGap : layout.IsGap size gap) :
    layout.rank gap.stop = layout.rank gap.offset :=
  rank_eq_of_hidden (Nat.le_add_right _ _) fun position above below =>
    isGap.hidden position ⟨above, below⟩

theorem place_eq (isGap : layout.IsGap size gap) :
    layout.place gap = ⟨layout.rank gap.offset, 0⟩ := by
  rw [place, isGap.rank_stop, Region.ofBounds, Nat.sub_self]

end Layout.IsGap

theorem Layout.WellFormed.place_of_cover {layout : Layout} {size : Nat} {front back : List Pair}
    {pair : Pair} {region : Region} (wf : layout.WellFormed size)
    (split : layout.pairs = front ++ pair :: back) (start : pair.fragment.offset ≤ region.offset)
    (stop : region.stop ≤ pair.fragment.stop) :
    layout.place region = ⟨layout.rank region.offset, region.length⟩ := by
  have order : region.offset ≤ region.stop := Nat.le_add_right _ _
  have startRank := wf.rank_within split start (Nat.le_trans order stop)
  have stopRank := wf.rank_within split (Nat.le_trans start order) stop
  have regionLimit : region.stop = region.offset + region.length := rfl
  have length : layout.rank region.stop - layout.rank region.offset = region.length := by omega
  rw [Layout.place, Region.ofBounds, length]

namespace Text

theorem pick_splice_shows {layout : Layout} {after : Nat → Prop} [DecidablePred after]
    {text replacement : Text} {region : Region} (inside : region.Inside text.length)
    (below : ∀ position < region.offset, after position ↔ layout.Shows position)
    (above : ∀ i, after (region.offset + replacement.length + i) ↔
      layout.Shows (region.offset + region.length + i)) :
    pick after (text.splice region replacement) =
      (pick layout.Shows text).splice (layout.place region)
        (pick (fun i => after (region.offset + i)) replacement) := by
  have counted : layout.rank region.stop - layout.rank region.offset =
      Nat.count (fun i => layout.Shows (region.offset + i)) region.length := by
    simp only [Layout.rank, Region.stop, Nat.count_add, Nat.add_sub_cancel_left]
  rw [pick_splice inside below above, Layout.place, Region.ofBounds, counted]
  rfl

end Text

namespace Projection

/-- The layout that a plan leads to. -/
structure Carries (projection : Projection) (master : Text) (planned : Planned) (layout : Layout) :
    Prop where
  done : projection.carryOut planned =
    .done { projection with layout, text := layout.textUnder master }
  wellFormed : layout.WellFormed master.length
  shows : ∀ position, layout.Shows position ↔ planned.Shows projection.layout.Shows position
  text_eq : layout.textUnder master =
    projection.text.splice planned.change.image planned.change.text

variable {projection : Projection} {master : Text} {planned : Planned}

/-- The normal form of an orderly layout takes the place of the old one, with the text that
belongs to it. -/
theorem carries_normalForm {reshaped : Layout}
    (anchored : planned.change.origin.offset ≤ master.length)
    (shape : projection.layout.reshape planned.change.origin planned.action = .ok reshaped)
    (orderly : reshaped.Orderly master.length)
    (shows : ∀ position, reshaped.Shows position ↔
      planned.Shows projection.layout.Shows position)
    (accepted : planned.textAfter projection.text =
      .ok (projection.text.splice planned.change.image planned.change.text))
    (picked : master.pick reshaped.Shows =
      projection.text.splice planned.change.image planned.change.text) :
    projection.Carries master planned
      (reshaped.layOut.normalForm planned.change.origin.offset) := by
  have laidOut := orderly.layOut
  obtain ⟨wf, same⟩ := Layout.normalForm_spec laidOut.ordered laidOut.inside anchored
  have shown (position : Nat) := (same position).trans (Layout.shows_layOut reshaped position)
  have under : (reshaped.layOut.normalForm planned.change.origin.offset).textUnder master =
      projection.text.splice planned.change.image planned.change.text := by
    rw [wf.textUnder_eq_pick, ← picked]
    exact Text.pick_congr fun i _ => shown i
  refine ⟨?_, wf, fun position => (shown position).trans (shows position), under⟩
  simp only [carryOut, shape, accepted, under]
  rw [WellFormed.checked_eq ⟨wf, under.symm⟩]

namespace WellFormed

theorem text_eq_pick (wf : projection.WellFormed master) :
    projection.text = master.pick projection.layout.Shows := by
  rw [wf.text_eq, wf.layout.textUnder_eq_pick]

theorem slice_place (wf : projection.WellFormed master) {region : Region}
    (inside : region.Inside master.length) :
    projection.text.slice (projection.layout.place region) =
      Text.pick (fun i => projection.layout.Shows (region.offset + i)) (master.slice region) := by
  obtain ⟨front, middle, back, parts, start, length⟩ := Text.exists_parts inside
  have sliced : master.slice region = middle := by
    rw [parts, Text.slice, ← start, ← length, List.append_assoc, List.drop_left, List.take_left]
  have before : (front.pick projection.layout.Shows).length =
      projection.layout.rank region.offset := by
    rw [Text.length_pick, start]
    rfl
  have within : (Text.pick (fun i => projection.layout.Shows (front.length + i)) middle).length =
      projection.layout.rank region.stop - projection.layout.rank region.offset := by
    simp only [Text.length_pick, Layout.rank, Region.stop, Nat.count_add, start, length,
      Nat.add_sub_cancel_left]
  rw [wf.text_eq_pick, sliced, parts, Text.pick_append, Text.pick_append, Layout.place, Region.ofBounds,
    ← within, ← before, Text.slice, List.append_assoc, List.drop_left, List.take_left, start]

theorem slice_place_of_shown (wf : projection.WellFormed master) {region : Region}
    (inside : region.Inside master.length)
    (shown : ∀ position, region.Covers position → projection.layout.Shows position) :
    projection.text.slice (projection.layout.place region) = master.slice region := by
  rw [wf.slice_place inside]
  refine Text.pick_of_forall fun i below => shown _ ⟨Nat.le_add_right _ _, ?_⟩
  rw [Text.length_slice inside] at below
  exact Nat.add_lt_add_left below _

theorem rank_le (wf : projection.WellFormed master) (offset : Nat) :
    projection.layout.rank offset ≤ projection.text.length := by
  have length : projection.text.length = Layout.extent projection.layout.pairs := wf.length_eq
  rw [length]
  exact wf.layout.rank_le_extent offset

theorem pick_of_same_outside (wf : projection.WellFormed master) {after : Layout} {region : Region}
    (inside : region.Inside master.length)
    (same : ∀ position, ¬ region.Covers position →
      (after.Shows position ↔ projection.layout.Shows position)) :
    master.pick after.Shows = projection.text.splice (projection.layout.place region)
      (Text.pick (fun i => after.Shows (region.offset + i)) (master.slice region)) := by
  have spliced : Text.pick after.Shows (master.splice region (master.slice region)) =
      (master.pick projection.layout.Shows).splice (projection.layout.place region)
        (Text.pick (fun i => after.Shows (region.offset + i)) (master.slice region)) := by
    apply Text.pick_splice_shows inside
    · exact fun position below => same position fun covers => Nat.not_le.mpr below covers.1
    · intro i
      rw [Text.length_slice inside]
      exact same _ fun covers => Nat.not_le.mpr covers.2 (Nat.le_add_right _ _)
  rwa [Text.splice_slice, ← wf.text_eq_pick] at spliced

theorem exists_carries_fill (wf : projection.WellFormed master)
    {gap : Region} {action : Action}
    (isGap : projection.layout.IsGap master.length gap)
    (found : projection.layout.fillAction? gap = some action) (edit : Option Edit) :
    ∃ layout, projection.Carries master
      ⟨action, .projection, ⟨projection.layout.rank gap.offset, 0⟩, master.slice gap, gap, edit⟩
      layout := by
  have inside : gap.Inside master.length := Region.inside_iff.mpr isGap.inside
  obtain ⟨action', reshaped, found', fills, shape, orderly, shows⟩ :=
    isGap.exists_fill wf.layout
  obtain rfl : action = action' := Option.some.inj (found.symm.trans found')
  have room : gap.offset < gap.stop := Nat.lt_add_of_pos_right isGap.nonempty
  have planShows (position : Nat) : Planned.Shows
      ⟨action, .projection, ⟨projection.layout.rank gap.offset, 0⟩, master.slice gap, gap, edit⟩
      projection.layout.Shows position ↔
        projection.layout.Shows position ∨ gap.Covers position :=
    Planned.shows_of_fills fills
  have picked : master.pick reshaped.Shows =
      projection.text.splice ⟨projection.layout.rank gap.offset, 0⟩ (master.slice gap) := by
    have spliced := wf.pick_of_same_outside inside fun position outside =>
      (shows position).trans (or_iff_left outside)
    have all : Text.pick (fun i => reshaped.Shows (gap.offset + i)) (master.slice gap) =
        master.slice gap :=
      Text.pick_of_forall fun i below => (shows _).mpr <| .inr ⟨Nat.le_add_right _ _, by
        rw [Text.length_slice inside] at below
        exact Nat.add_lt_add_left below _⟩
    rwa [all, isGap.place_eq] at spliced
  have accepted : Planned.textAfter
      ⟨action, .projection, ⟨projection.layout.rank gap.offset, 0⟩, master.slice gap, gap, edit⟩
      projection.text =
        .ok (projection.text.splice ⟨projection.layout.rank gap.offset, 0⟩ (master.slice gap)) :=
    Planned.textAfter_of_fills fills rfl (wf.rank_le gap.offset)
  exact ⟨_, carries_normalForm (Nat.le_trans (Nat.le_of_lt room) isGap.inside) shape orderly
    (fun position => (shows position).trans (planShows position).symm) accepted picked⟩

theorem exists_carries_removal (wf : projection.WellFormed master)
    {front back : List Pair} {pair : Pair} {region : Region}
    (split : projection.layout.pairs = front ++ pair :: back)
    (start : pair.fragment.offset ≤ region.offset) (stop : region.stop ≤ pair.fragment.stop) :
    ∃ layout, projection.Carries master
      ⟨.cut front.length, .projection, ⟨projection.layout.rank region.offset, region.length⟩, [],
        region, none⟩ layout := by
  have within := wf.layout.inside pair (by simp [split])
  have order : region.offset ≤ region.stop := Nat.le_add_right _ _
  have inside : region.Inside master.length := Region.inside_iff.mpr (Nat.le_trans stop within)
  obtain ⟨orderly, shows⟩ := Layout.cuts_cut wf.layout split stop start
  have entry : projection.layout.pairs[front.length]? = some pair := by simp [split]
  have shape : projection.layout.reshape region (.cut front.length) =
      .ok (projection.layout.cut front.length pair region) := by
    simp only [Layout.reshape, entry]
  have startRank := wf.layout.rank_within split start (Nat.le_trans order stop)
  have stopRank := wf.layout.rank_within split (Nat.le_trans start order) stop
  have regionLimit : region.stop = region.offset + region.length := rfl
  have place := wf.layout.place_of_cover split start stop
  have picked : master.pick (projection.layout.cut front.length pair region).Shows =
      projection.text.splice ⟨projection.layout.rank region.offset, region.length⟩ [] := by
    have spliced := wf.pick_of_same_outside inside fun position outside =>
      (shows position).trans (and_iff_left outside)
    have none : Text.pick (fun i => (projection.layout.cut front.length pair region).Shows
        (region.offset + i)) (master.slice region) = [] :=
      Text.pick_of_forall_not fun i below shown => ((shows _).mp shown).2 ⟨Nat.le_add_right _ _, by
        rw [Text.length_slice inside] at below
        exact Nat.add_lt_add_left below _⟩
    rwa [none, place] at spliced
  have accepted : Planned.textAfter ⟨.cut front.length, .projection,
      ⟨projection.layout.rank region.offset, region.length⟩, [], region, none⟩ projection.text =
        .ok (projection.text.splice ⟨projection.layout.rank region.offset, region.length⟩ []) := by
    have bound := wf.rank_le region.stop
    refine Planned.textAfter_of_cut rfl ?_
    change projection.layout.rank region.offset + region.length ≤ _
    omega
  exact ⟨_, carries_normalForm (Nat.le_trans order (Nat.le_trans stop within)) shape orderly
    shows accepted picked⟩

theorem exists_carries_reset (wf : projection.WellFormed master)
    {region : Region} (inside : region.Inside master.length) :
    ∃ layout, projection.Carries master
      ⟨.reset, .projection, ⟨0, Layout.extent projection.layout.pairs⟩, master.slice region, region,
        none⟩ layout := by
  have bound := Region.inside_iff.mp inside
  have orderly : (({} : Layout).insert 0 ⟨region.offset, region.length, false⟩).Orderly
      master.length := by
    constructor
    · exact Layout.Ordered.filter ⟨by simp [Layout.insert], by simp [Layout.insert]⟩ _
    · simpa [Layout.insert, Interval.stop] using bound
  have shows (position : Nat) :
      (({} : Layout).insert 0 ⟨region.offset, region.length, false⟩).Shows position ↔
        region.Covers position := by
    simp [Layout.Shows, Layout.insert, Interval.Covers, Interval.stop, Region.Covers, Region.stop]
  have size : projection.text.length = Layout.extent projection.layout.pairs := wf.length_eq
  have replaced : projection.text.splice ⟨0, Layout.extent projection.layout.pairs⟩
      (master.slice region) = master.slice region := by
    simp [Text.splice, ← size]
  have picked : master.pick (({} : Layout).insert 0 ⟨region.offset, region.length, false⟩).Shows =
      projection.text.splice ⟨0, Layout.extent projection.layout.pairs⟩ (master.slice region) := by
    rw [replaced, ← Text.pick_covers inside]
    exact Text.pick_congr fun i _ => shows i
  exact ⟨_, carries_normalForm (Nat.le_trans (Nat.le_add_right _ _) bound) rfl orderly shows
    (by rw [replaced]; rfl) picked⟩

/-- A current plan is carried out. The projection is well-formed afterwards and shows what the
plan says, and its text has changed as was announced. -/
theorem exists_carries (wf : projection.WellFormed master)
    (current : planned.Current projection.layout master) :
    ∃ layout, projection.Carries master planned layout := by
  cases current with
  | fill isGap found edit => exact wf.exists_carries_fill isGap found edit
  | removal split start stop => exact wf.exists_carries_removal split start stop
  | reset inside => exact wf.exists_carries_reset inside

end WellFormed

end Projection

namespace Projection

variable {projection : Projection} {master : Master} {size : Nat}

theorem exists_planFill_eq (wf : projection.layout.WellFormed size)
    {gap : Region} (isGap : projection.layout.IsGap size gap) (inside : gap.Inside master.length)
    (edit : Option Edit) :
    ∃ action, projection.layout.fillAction? gap = some action ∧ action.Fills ∧
      projection.planFill master gap edit = .ok ⟨action, .projection,
        ⟨projection.layout.rank gap.offset, 0⟩, master.text.slice gap, gap, edit⟩ := by
  obtain ⟨action, -, found, fills, -⟩ := isGap.exists_fill wf
  refine ⟨action, found, fills, ?_⟩
  simp only [planFill, found, Master.get_eq inside, isGap.segmentStart_eq wf]
  rfl

theorem planFill_outside {gap : Region} (outside : ¬ gap.Inside master.length) (edit : Option Edit) :
    ∃ error, projection.planFill master gap edit = .error error ∧ error.isFault = false := by
  unfold planFill
  split
  · exact ⟨_, rfl, rfl⟩
  · rw [Master.get, Master.outside?_of_not_inside outside]
    exact ⟨_, rfl, rfl⟩

theorem planRemoval_cases (wf : projection.layout.WellFormed size) {region : Region}
    (nonempty : 0 < region.length) :
    (∃ front pair back, projection.layout.pairs = front ++ pair :: back ∧
      pair.fragment.offset ≤ region.offset ∧ region.stop ≤ pair.fragment.stop ∧
      projection.planRemoval region = .ok ⟨.cut front.length, .projection,
        ⟨projection.layout.rank region.offset, region.length⟩, [], region, none⟩) ∨
      projection.planRemoval region = .error (.notShown region) := by
  cases found : projection.layout.pairs.findIdx? fun pair =>
      pair.fragment.offset ≤ region.offset && region.stop ≤ pair.fragment.stop with
  | none =>
    right
    cases image : projection.layout.image? region <;> simp [planRemoval, found, image]
  | some index =>
    obtain ⟨bound, holds, -⟩ := List.findIdx?_eq_some_iff_getElem.mp found
    have member : projection.layout.pairs[index] ∈ projection.layout.pairs :=
      List.getElem_mem bound
    simp only [Bool.and_eq_true, decide_eq_true_eq] at holds
    have split : projection.layout.pairs = projection.layout.pairs.take index ++
        projection.layout.pairs[index] :: projection.layout.pairs.drop (index + 1) := by
      rw [← List.drop_eq_getElem_cons, List.take_append_drop]
    have length : (projection.layout.pairs.take index).length = index := by
      rw [List.length_take]
      omega
    by_cases word : region.stop < Offset.bound
    · have image := wf.image?_of_cover word split nonempty holds.1 holds.2
      refine .inl ⟨_, _, _, split, holds.1, holds.2, ?_⟩
      simp only [planRemoval, found, image, length]
    · right
      simp only [planRemoval, Layout.image?_of_far word]

end Projection

namespace Projection.WellFormed

variable {projection : Projection} {master : Master}

theorem exists_planFill (wf : projection.WellFormed master.text)
    {gap : Region}
    (isGap : projection.layout.IsGap master.length gap) (edit : Option Edit) :
    ∃ planned, projection.planFill master gap edit = .ok planned ∧
      planned.Current projection.layout master.text ∧ planned.action.Fills ∧
      planned.change.origin = gap ∧ planned.change.kind = .projection := by
  obtain ⟨action, found, fills, plan⟩ :=
    exists_planFill_eq wf.layout isGap (Region.inside_iff.mpr isGap.inside) edit
  exact ⟨_, plan, .fill isGap found edit, fills, rfl, rfl⟩

theorem planFill_cases (wf : projection.WellFormed master.text) {gap : Region} (nonempty : 0 < gap.length)
    (hidden : ∀ position, gap.Covers position → ¬ projection.layout.Shows position)
    (edit : Option Edit) :
    (∃ planned, projection.planFill master gap edit = .ok planned ∧
      planned.Current projection.layout master.text) ∨
      ¬ gap.Inside master.length ∧
        ∃ error, projection.planFill master gap edit = .error error ∧ error.isFault = false := by
  by_cases inside : gap.Inside master.length
  · obtain ⟨planned, plan, current, -⟩ :=
      wf.exists_planFill ⟨nonempty, Region.inside_iff.mp inside, hidden⟩ edit
    exact .inl ⟨planned, plan, current⟩
  · exact .inr ⟨inside, planFill_outside inside edit⟩

theorem planRemoval_spec (wf : projection.WellFormed master.text) {region : Region}
    (nonempty : 0 < region.length) :
    (∃ planned, projection.planRemoval region = .ok planned ∧
      planned.Current projection.layout master.text) ∨
      projection.planRemoval region = .error (.notShown region) := by
  rcases planRemoval_cases wf.layout nonempty with
    ⟨front, pair, back, split, start, stop, plan⟩ | refused
  · exact .inl ⟨_, plan, .removal split start stop⟩
  · exact .inr refused

theorem exists_planRemoval (wf : projection.WellFormed master.text)
    (fits : master.length < Offset.bound) {region : Region} (nonempty : 0 < region.length)
    (shown : ∀ position, region.Covers position → projection.layout.Shows position) :
    region.Inside master.length ∧ ∃ planned, projection.planRemoval region = .ok planned ∧
      planned.Current projection.layout master.text := by
  obtain ⟨front, pair, back, split, start, stop⟩ :=
    wf.layout.exists_cover nonempty fun position low high => shown position ⟨low, high⟩
  have member : pair ∈ projection.layout.pairs := Layout.WellFormed.member_of_split split
  have within : region.stop ≤ master.length := Nat.le_trans stop (wf.layout.inside pair member)
  have inside : region.Inside master.length := Region.inside_iff.mpr within
  refine ⟨inside, (wf.planRemoval_spec nonempty).resolve_right fun refused => ?_⟩
  have image : projection.layout.image? region = _ :=
    wf.layout.image?_of_cover (Region.stop_lt_of_inside inside fits) split nonempty start stop
  have holds : (decide (pair.fragment.offset ≤ region.offset) &&
      decide (region.stop ≤ pair.fragment.stop)) = true := by
    simpa using ⟨start, stop⟩
  cases found : projection.layout.pairs.findIdx? fun pair =>
      pair.fragment.offset ≤ region.offset && region.stop ≤ pair.fragment.stop with
  | none => exact absurd holds (by simpa using List.findIdx?_eq_none_iff.mp found pair member)
  | some index => simp [planRemoval, image, found] at refused

theorem exists_planReset (wf : projection.WellFormed master.text) {region : Region}
    (inside : region.Inside master.length) :
    ∃ planned, projection.planReset master region = .ok planned ∧
      planned.Current projection.layout master.text := by
  refine ⟨_, ?_, .reset inside⟩
  simp only [planReset, Master.get_eq inside, wf.length_eq]
  rfl

end Projection.WellFormed

end TextProjection
