import TextProjection.Proofs.Projection.Follow

/-! Projections whose fragments are in order, whatever their text says. The fragments need not lie
inside the master text, only inside some text that could be addressed. Ranges can be changed all the
same.
-/

set_option autoImplicit false

namespace TextProjection

theorem Region.count_covers {region : Region} {size : Nat} (inside : region.stop ≤ size) :
    Nat.count region.Covers size = region.length := by
  have live : (Interval.mk region.offset region.length false).deleted = false := rfl
  have counted := Interval.count_covers live size
  have same : Nat.count region.Covers size =
      Nat.count (Interval.mk region.offset region.length false).Covers size :=
    count_congr fun i _ => by simp [Covers, Interval.Covers, stop, Interval.stop]
  rw [same, counted]
  unfold stop at inside
  simp only
  omega

theorem Layout.WellFormed.mono {layout : Layout} {size larger : Nat} (wf : layout.WellFormed size)
    (le : size ≤ larger) : layout.WellFormed larger :=
  { wf with inside := fun pair member => Nat.le_trans (wf.inside pair member) le }

/-- The range change can be carried out. It leaves the fragments in order, and the text is as long as
what they show. -/
structure Planned.Fits (size : Nat) (layout : Layout) (text : Text) (planned : Planned) : Prop where
  anchored : planned.change.origin.offset ≤ size
  makes : ∃ reshaped after, layout.reshape planned.change.origin planned.action = .ok reshaped ∧
    planned.textAfter text = .ok after ∧ reshaped.Orderly size ∧ after.length = reshaped.rank size

namespace Projection

/-- The fragments are in order inside a text of some size, and the projection text is as long as they
are. -/
structure Placed (size : Nat) (projection : Projection) : Prop where
  layout : projection.layout.WellFormed size
  length_eq : projection.text.length = Layout.extent projection.layout.pairs

variable {projection : Projection} {master : Master} {size : Nat}

theorem placed_nil (layout : projection.layout = {}) (text : projection.text = []) :
    projection.Placed size := by
  constructor
  · rw [layout]
    exact Layout.WellFormed.nil
  · rw [layout, text]
    rfl

theorem placed_of_checked (wf : projection.layout.WellFormed size)
    (accepted : projection.checked.error = none) : projection.Placed size := by
  refine ⟨wf, ?_⟩
  have found : projection.fault? = none := Option.map_eq_none_iff.mp accepted
  simp only [fault?, wf.fault?_eq_none, Option.none_or, ite_eq_left_iff, reduceCtorEq,
    imp_false, not_not] at found
  exact found.trans (wf.coveredLength_eq)

namespace Placed

theorem congr {other : Projection} (placed : projection.Placed size)
    (layout : other.layout = projection.layout) (text : other.text = projection.text) :
    other.Placed size := by
  constructor
  · rw [layout]
    exact placed.layout
  · rw [text, layout]
    exact placed.length_eq

theorem mono {larger : Nat} (placed : projection.Placed size) (le : size ≤ larger) :
    projection.Placed larger :=
  ⟨placed.layout.mono le, placed.length_eq⟩

theorem checked_eq (placed : projection.Placed size) :
    projection.checked = .done projection := by
  have lengths : projection.length = projection.layout.coveredLength :=
    placed.length_eq.trans (placed.layout.coveredLength_eq).symm
  simp [checked, fault?, placed.layout.fault?_eq_none, lengths, Outcome.done]

section
variable (placed : projection.Placed size)

include placed

theorem length_eq_rank : projection.text.length = projection.layout.rank size :=
  placed.length_eq.trans placed.layout.rank_size.symm

theorem rank_le_length {offset : Nat} (inside : offset ≤ size) :
    projection.layout.rank offset ≤ projection.text.length := by
  rw [placed.length_eq_rank]
  exact Nat.count_monotone _ inside

theorem fits_fill {gap : Region} {action : Action} (isGap : projection.layout.IsGap size gap)
    (found : projection.layout.fillAction? gap = some action) {text : Text}
    (length : text.length = gap.length) (edit : Option Edit) :
    Planned.Fits size projection.layout projection.text
      ⟨action, .projection, ⟨projection.layout.rank gap.offset, 0⟩, text, gap, edit⟩ := by
  obtain ⟨action', reshaped, found', fills, shape, orderly, shows⟩ :=
    isGap.exists_fill placed.layout
  obtain rfl : action = action' := Option.some.inj (found.symm.trans found')
  have anchored : gap.offset ≤ size := Nat.le_trans (Nat.le_add_right _ _) isGap.inside
  have bound := placed.rank_le_length anchored
  have inside : Region.Inside ⟨projection.layout.rank gap.offset, 0⟩ projection.text.length :=
    Region.inside_iff.mpr bound
  refine ⟨anchored, reshaped, _, shape, Planned.textAfter_of_fills fills rfl bound, orderly, ?_⟩
  -- What is shown now was shown before, or it is in the gap.
  have counted : reshaped.rank size = projection.layout.rank size + gap.length := by
    have disjoint : ∀ position < size, projection.layout.Shows position → ¬ gap.Covers position :=
      fun position _ shown covers => isGap.hidden position covers shown
    rw [← Region.count_covers isGap.inside]
    exact (count_congr fun position _ => shows position).trans (count_or disjoint)
  rw [counted, ← placed.length_eq_rank, Text.length_splice inside, length, Nat.sub_zero]

theorem fits_removal {front back : List Pair} {pair : Pair} {region : Region}
    (split : projection.layout.pairs = front ++ pair :: back)
    (start : pair.fragment.offset ≤ region.offset) (stop : region.stop ≤ pair.fragment.stop) :
    Planned.Fits size projection.layout projection.text
      ⟨.cut front.length, .projection, ⟨projection.layout.rank region.offset, region.length⟩, [],
        region, none⟩ := by
  have member := Layout.WellFormed.member_of_split split
  have within : region.stop ≤ size := Nat.le_trans stop (placed.layout.inside pair member)
  have order : region.offset ≤ region.stop := Nat.le_add_right _ _
  obtain ⟨orderly, shows⟩ := Layout.cuts_cut placed.layout split stop start
  have entry : projection.layout.pairs[front.length]? = some pair := by simp [split]
  have shape : projection.layout.reshape region (.cut front.length) =
      .ok (projection.layout.cut front.length pair region) := by
    simp only [Layout.reshape, entry]
  -- What is shown now and what is hidden make up what was shown before.
  have counted : projection.layout.rank size =
      (projection.layout.cut front.length pair region).rank size + region.length := by
    have shown : ∀ position, region.Covers position → projection.layout.Shows position :=
      fun position covers => ⟨pair, member, placed.layout.live pair member,
        Nat.le_trans start covers.1, Nat.lt_of_lt_of_le covers.2 stop⟩
    have disjoint : ∀ position < size,
        (projection.layout.cut front.length pair region).Shows position → ¬ region.Covers position :=
      fun position _ left => ((shows position).mp left).2
    rw [← Region.count_covers within]
    refine (count_congr fun position _ => ?_).trans (count_or disjoint)
    have covered := shown position
    rw [shows position]
    tauto
  have inside : Region.stop ⟨projection.layout.rank region.offset, region.length⟩ ≤
      projection.text.length := by
    have bound := placed.rank_le_length within
    have startRank := placed.layout.rank_within split start (Nat.le_trans order stop)
    have stopRank := placed.layout.rank_within split (Nat.le_trans start order) stop
    change projection.layout.rank region.offset + region.length ≤ _
    have limit : region.stop = region.offset + region.length := rfl
    omega
  refine ⟨Nat.le_trans order within, _, _, shape, Planned.textAfter_of_cut rfl inside, orderly, ?_⟩
  rw [Text.length_splice (Region.inside_iff.mpr inside), placed.length_eq_rank, counted]
  simp

omit placed in
theorem fits_reset {region : Region} (inside : region.stop ≤ size) {text : Text}
    (length : text.length = region.length) (layout : Layout) (before : Text) (image : Region) :
    Planned.Fits size layout before ⟨.reset, .projection, image, text, region, none⟩ := by
  have orderly : (({} : Layout).insert 0 ⟨region.offset, region.length, false⟩).Orderly size := by
    constructor
    · exact Layout.Ordered.filter ⟨by simp [Layout.insert], by simp [Layout.insert]⟩ _
    · simpa [Layout.insert, Interval.stop, Region.stop] using inside
  refine ⟨Nat.le_trans (Nat.le_add_right _ _) inside, _, text, rfl, rfl, orderly, ?_⟩
  refine length.trans ((Region.count_covers inside).symm.trans (count_congr fun position _ => ?_))
  simp [Layout.Shows, Layout.insert, Interval.Covers, Interval.stop, Region.Covers, Region.stop]

end

section
variable (placed : projection.Placed size) (within : master.length ≤ size)

include within

include placed in
theorem planFill_cases {gap : Region} (nonempty : 0 < gap.length)
    (hidden : ∀ position, gap.Covers position → ¬ projection.layout.Shows position)
    (edit : Option Edit) :
    (∃ planned, projection.planFill master gap edit = .ok planned ∧
      planned.Fits size projection.layout projection.text) ∨
      ¬ gap.Inside master.length ∧
        ∃ error, projection.planFill master gap edit = .error error ∧ error.isFault = false := by
  by_cases inside : gap.Inside master.length
  · have isGap : projection.layout.IsGap size gap :=
      ⟨nonempty, Nat.le_trans (Region.inside_iff.mp inside) within, hidden⟩
    obtain ⟨action, found, -, plan⟩ := exists_planFill_eq placed.layout isGap inside edit
    exact .inl ⟨_, plan, placed.fits_fill isGap found (Text.length_slice inside) edit⟩
  · exact .inr ⟨inside, planFill_outside inside edit⟩

include placed in
omit within in
theorem planRemoval_cases {region : Region} (nonempty : 0 < region.length) :
    (∃ planned, projection.planRemoval region = .ok planned ∧
      planned.Fits size projection.layout projection.text) ∨
      projection.planRemoval region = .error (.notShown region) := by
  rcases Projection.planRemoval_cases placed.layout nonempty with
    ⟨front, pair, back, split, start, stop, plan⟩ | refused
  · exact .inl ⟨_, plan, placed.fits_removal split start stop⟩
  · exact .inr refused

theorem exists_planReset {region : Region} (inside : region.Inside master.length) :
    ∃ planned, projection.planReset master region = .ok planned ∧
      planned.Fits size projection.layout projection.text := by
  refine ⟨_, ?_, fits_reset (Nat.le_trans (Region.inside_iff.mp inside) within)
    (Text.length_slice inside) _ _ ⟨0, projection.length⟩⟩
  simp only [planReset, Master.get_eq inside]
  rfl

end

/-! Edits of the master -/

theorem seeded (placed : projection.Placed size) (edit : Edit) :
    (projection.seeded edit).Placed size := by
  rcases seeded_cases projection edit with ⟨none, -, same⟩ | ⟨-, same⟩
  · have length := placed.length_eq
    rw [none] at length
    rw [same]
    refine ⟨⟨by simp, by simp [Layout.Tiles], List.pairwise_singleton _ _, by simp [Layout.size],
      by simp [Interval.stop]⟩, ?_⟩
    simpa using length
  · rw [same]
    exact placed

theorem follow {edit : Edit} (placed : projection.Placed size)
    (inside : edit.region.stop ≤ size) :
    (projection.follow edit).layout.WellFormed (size + edit.text.length) := by
  have within : edit.splice.offset + edit.splice.removed ≤ size := inside
  have wf := (placed.layout.drift_normalForm within).1
  refine Layout.WellFormed.mono wf ?_
  change size - edit.region.length + edit.text.length ≤ _
  omega

end Placed

/-- A range change that fits is carried out. -/
theorem exists_carryOut_of_fits (projection : Projection) {planned : Planned}
    (suits : planned.Fits size projection.layout projection.text) :
    ∃ layout text, projection.carryOut planned = .done { projection with layout, text } ∧
      { projection with layout, text }.Placed size := by
  obtain ⟨anchored, reshaped, after, shape, accepted, orderly, length⟩ := suits
  have laidOut := orderly.layOut
  obtain ⟨wf, same⟩ := Layout.normalForm_spec laidOut.ordered laidOut.inside anchored
  have placed : Placed size { projection with
      text := after, layout := reshaped.layOut.normalForm planned.change.origin.offset } := by
    refine ⟨wf, ?_⟩
    -- The normal form shows what the new fragments show.
    rw [← wf.rank_size]
    exact length.trans (count_congr fun i _ =>
      ((same i).trans (Layout.shows_layOut reshaped i)).symm)
  refine ⟨_, _, ?_, placed⟩
  simp only [carryOut, shape, accepted]
  exact placed.checked_eq

end Projection

end TextProjection
