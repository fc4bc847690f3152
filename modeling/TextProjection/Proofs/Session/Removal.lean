import TextProjection.Proofs.Layout.Converge
import TextProjection.Proofs.Session.Usual

/-! Hiding a range takes it out of what is shown, and nothing else. A range of which some part is not
shown is refused, although the search for its image may find one.
-/

set_option autoImplicit false

namespace TextProjection

variable {μ : Type}

namespace Layout

variable {layout : Layout} {size : Nat} {region : Region} {front back : List Pair} {pair : Pair}

theorem WellFormed.whole_of_removed (wf : layout.WellFormed size)
    (split : layout.pairs = front ++ pair :: back) (nonempty : 0 < region.length)
    (start : pair.fragment.offset ≤ region.offset) (stop : region.stop ≤ pair.fragment.stop)
    (within : ∀ position, layout.Shows position → region.Covers position) :
    front = [] ∧ back = [] ∧ pair.fragment = ⟨region.offset, region.length, false⟩ := by
  have room : region.offset < region.stop := Nat.lt_add_of_pos_right nonempty
  have first : layout.Shows region.offset :=
    wf.shows_of_split split start (Nat.lt_of_lt_of_le room stop)
  have inner {other : Pair} (member : other ∈ layout.pairs) :
      region.offset ≤ other.fragment.offset ∧ other.fragment.stop ≤ region.stop :=
    wf.within_of_admits (.inl first) within member
  have frontEmpty : front = [] := by
    refine List.eq_nil_iff_forall_not_mem.mpr fun other member => ?_
    have before := wf.before split other member
    have here := (inner (by simp [split, member] : other ∈ layout.pairs)).1
    have order := other.fragment.offset_le_stop
    omega
  have backEmpty : back = [] := by
    refine List.eq_nil_iff_forall_not_mem.mpr fun other member => ?_
    have after := wf.after split other member
    have here := (inner (by simp [split, member] : other ∈ layout.pairs)).2
    have order := other.fragment.offset_le_stop
    omega
  have member : pair ∈ layout.pairs := WellFormed.member_of_split split
  obtain ⟨low, high⟩ := inner member
  refine ⟨frontEmpty, backEmpty, ?_⟩
  have offset : pair.fragment.offset = region.offset := Nat.le_antisymm start low
  have length : pair.fragment.length = region.length := by
    have limit : pair.fragment.stop = region.stop := Nat.le_antisymm high stop
    unfold Interval.stop Region.stop at limit
    omega
  have live := wf.live pair member
  rw [← offset, ← length, ← live]

theorem normalForm_cut_whole
    (whole : pair.fragment = ⟨region.offset, region.length, false⟩) (anchor : Nat) :
    (cut ⟨[pair]⟩ 0 pair region).layOut.normalForm anchor = vacant region.stop := by
  simp [cut, whole, layOut, tile, normalForm, condense, showsNothing, sift, fuse,
    fuseFrom, Pair.deleted, vacant]

end Layout

namespace Projection

variable {projection : Projection} {master : Text} {planned : Planned} {layout reshaped : Layout}

theorem Carries.eq_normalForm (carries : projection.Carries master planned layout)
    (shape : projection.layout.reshape planned.change.origin planned.action = .ok reshaped) :
    layout = reshaped.layOut.normalForm planned.change.origin.offset := by
  have done := carries.done
  simp only [carryOut, shape] at done
  split at done
  · cases congrArg Outcome.error done
  · exact (congrArg (·.state.layout) done).symm

/-- A region, of which everything was shown, was taken out of what is shown. -/
structure Loses (before after : Projection) (master : Text) (region : Region) : Prop where
  reshapes : before.Reshapes after
  wellFormed : after.WellFormed master
  shows : ∀ position, after.layout.Shows position ↔
    before.layout.Shows position ∧ ¬ region.Covers position
  runs : ∀ position, after.layout.Shows position →
    Runs after.layout.Shows 0 master.length after.layout.fragments
  /-- Where nothing is shown any more, a single empty fragment stands at the end of the region. -/
  blank : (∀ position, ¬ after.layout.Shows position) → after.layout = Layout.vacant region.stop
  text : ∃ image, before.layout.image? region = some image ∧
    before.text.slice image = master.slice region ∧ after.text = before.text.splice image []

variable {region : Region}

theorem WellFormed.exists_removal {master : Master} (wf : projection.WellFormed master.text)
    (fits : master.length < Offset.bound) (nonempty : 0 < region.length)
    (shown : ∀ position, region.Covers position → projection.layout.Shows position) :
    ∃ planned layout, projection.planRemoval region = .ok planned ∧
      projection.layout.image? region = some planned.change.image ∧
      planned.change = ⟨.projection, planned.change.image, [], region, none⟩ ∧
      projection.Carries master.text planned layout ∧
      projection.Loses { projection with layout, text := layout.textUnder master.text } master.text
        region := by
  obtain ⟨inside, removal, plan, -⟩ := wf.exists_planRemoval fits nonempty shown
  have word : region.stop < Offset.bound := Region.stop_lt_of_inside inside fits
  rcases planRemoval_cases wf.layout nonempty with
    ⟨front, pair, back, split, start, stop, planned⟩ | refused
  · obtain ⟨layout, carries⟩ := wf.exists_carries_removal split start stop
    have image := wf.layout.image?_of_cover word split nonempty start stop
    have sliced : projection.text.slice ⟨projection.layout.rank region.offset, region.length⟩ =
        master.text.slice region := by
      rw [← wf.layout.place_of_cover split start stop, wf.slice_place_of_shown inside shown]
    refine ⟨_, layout, planned, image, rfl, carries, ⟨layout, _, rfl⟩, ⟨carries.wellFormed, rfl⟩,
      carries.shows, fun position => carries.wellFormed.runs_fragments, fun blank => ?_,
      _, image, sliced, carries.text_eq⟩
    -- The only fragment is cut off its start, and an empty one is left where it ended.
    obtain ⟨rfl, rfl, whole⟩ := wf.layout.whole_of_removed split nonempty start stop
      fun position here => by
        by_contra outside
        exact blank position ((carries.shows position).mpr ⟨here, outside⟩)
    have sole : projection.layout = ⟨[pair]⟩ := congrArg Layout.mk split
    have shape : projection.layout.reshape region (.cut 0) =
        .ok (projection.layout.cut 0 pair region) := by
      rw [sole]
      rfl
    change layout = Layout.vacant region.stop
    rw [carries.eq_normalForm shape, sole]
    exact Layout.normalForm_cut_whole whole region.offset
  · cases plan.symm.trans refused

end Projection

namespace Session

variable {notify : Notifier μ} {master : Master} {session : Session μ} {region : Region}

theorem LiveIdle.remove_eq (liveIdle : session.LiveIdle master.text)
    (inside : region.Inside master.length) (nonempty : 0 < region.length) :
    remove notify master region session = breakOnFault
      (undertakePlan notify master session (session.projection.planRemoval region)) := by
  rw [remove, liveIdle.changeRanges_eq inside]
  simp only [Region.isEmpty_eq_false nonempty, Bool.false_eq_true, if_false]

/-- A range of which everything is shown is hidden, and the listeners are told so once. -/
theorem LiveIdle.exists_remove (informs : notify.Informs) (fits : master.length < Offset.bound)
    (liveIdle : session.LiveIdle master.text) (nonempty : 0 < region.length)
    (shown : ∀ position, region.Covers position → session.projection.layout.Shows position) :
    ∃ after image, remove notify master region session = .done after ∧
      session.projection.layout.image? region = some image ∧
      session.projection.Loses after.projection master.text region ∧
      after.notices = session.notices ++
        session.tidings ⟨.projection, image, [], region, none⟩ := by
  have wf := liveIdle.sound.wellFormed
  obtain ⟨inside, -⟩ := wf.exists_planRemoval fits nonempty shown
  obtain ⟨planned, layout, plan, image, change, carries, loses⟩ :=
    wf.exists_removal fits nonempty shown
  obtain ⟨after, done, projection, notices⟩ :=
    undertake_informs informs liveIdle.drained liveIdle.sound liveIdle.live carries
  refine ⟨after, planned.change.image, ?_, image, projection ▸ loses, change ▸ notices⟩
  rw [liveIdle.remove_eq inside nonempty, plan, undertakePlan, done]
  rfl

theorem LiveIdle.remove_of_hidden
    (liveIdle : session.LiveIdle master.text) (inside : region.Inside master.length) {position : Nat}
    (covers : region.Covers position) (hidden : ¬ session.projection.layout.Shows position) :
    remove notify master region session = .fail session (.notShown region) := by
  have wf := liveIdle.sound.wellFormed.layout
  have nonempty : 0 < region.length :=
    Nat.pos_of_lt_add_right (Nat.lt_of_le_of_lt covers.1 covers.2)
  rcases Projection.planRemoval_cases wf nonempty with
    ⟨front, pair, back, split, start, stop, -⟩ | refused
  · exact absurd (wf.shows_of_split split (Nat.le_trans start covers.1)
      (Nat.lt_of_lt_of_le covers.2 stop)) hidden
  · rw [liveIdle.remove_eq inside nonempty, refused]
    rfl

/-- Hiding a range does nothing if the range is empty and is refused if a part of it is hidden already.
Otherwise just the characters of the range are taken away, and all listeners are told before and after,
of the place where these stood. -/
theorem remove_loses {audience : Audience μ} (passive : audience.Passive)
    (fits : master.length < Offset.bound) (liveIdle : session.LiveIdle master.text)
    (inside : region.Inside master.length) :
    let removed := remove (publish audience) master region session
    (region.length = 0 → removed = .done session) ∧
    ((∃ position, region.Covers position ∧ ¬ session.projection.layout.Shows position) →
      removed = .fail session (.notShown region)) ∧
    (0 < region.length →
      (∀ position, region.Covers position → session.projection.layout.Shows position) →
      removed.error = none ∧ session.projection.Loses removed.state.projection master.text region ∧
        ∃ image, session.projection.layout.image? region = some image ∧
          removed.state.notices = session.notices ++
            session.tidings ⟨.projection, image, [], region, none⟩) := by
  refine ⟨fun empty => ?_, fun ⟨position, covers, hidden⟩ => ?_, fun nonempty shown => ?_⟩
  · rw [remove, liveIdle.changeRanges_eq inside]
    simp only [Region.isEmpty, empty, beq_self_eq_true, if_true]
    rfl
  · exact liveIdle.remove_of_hidden inside covers hidden
  · obtain ⟨after, image, removed, found, loses, notices⟩ :=
      liveIdle.exists_remove (publish_informs passive) fits nonempty shown
    rw [removed]
    exact ⟨rfl, loses, image, found, notices⟩

/-- Of the first two and the last two of five characters, the last two are hidden, and the two in the
middle cannot be. -/
theorem remove_loses_last :
    let removed (region : Region) :=
      remove (publish .counting) { text := ['a', 'b', 'c', 'd', 'e'] } region twoEnds
    removed ⟨4, 0⟩ = .done twoEnds ∧
      removed ⟨1, 2⟩ = .fail twoEnds (.notShown ⟨1, 2⟩) ∧
      twoEnds.projection.Loses (removed ⟨3, 2⟩).state.projection ['a', 'b', 'c', 'd', 'e'] ⟨3, 2⟩ := by
  have fits : Master.length { text := ['a', 'b', 'c', 'd', 'e'] } < Offset.bound := by decide
  have liveIdle := twoEnds_usualIdle.liveIdle
  have shown (position : Nat) (covers : Region.Covers ⟨3, 2⟩ position) :
      twoEnds.projection.layout.Shows position :=
    ⟨⟨⟨3, 2, false⟩, ⟨2, 2, false⟩⟩, by decide, rfl, covers⟩
  exact ⟨(remove_loses Audience.counting_passive fits liveIdle (by decide)).1 rfl,
    (remove_loses Audience.counting_passive fits liveIdle (by decide)).2.1 ⟨2, by decide, by decide⟩,
    ((remove_loses Audience.counting_passive fits liveIdle (by decide)).2.2 (by decide) shown).2.1⟩

end Session

end TextProjection
