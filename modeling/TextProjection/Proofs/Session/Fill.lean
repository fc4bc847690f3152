import TextProjection.Proofs.Session.Edit
import TextProjection.Proofs.Session.Passive

/-! Range changes with listeners that only look on. Each is announced and reported once, and just
what was planned becomes of the projection; so a region can be filled gap by gap.
-/

set_option autoImplicit false

namespace TextProjection

theorem Projection.Carries.free {projection : Projection} {master : Text} {planned : Planned}
    {layout : Layout} (carries : projection.Carries master planned layout) (listeners : Listeners) :
    { projection with listeners }.Carries master planned layout where
  done := by
    obtain ⟨made, text, error, carried⟩ := projection.exists_carryOut planned
    have here : projection.carryOut planned = _ := carried projection.listeners
    have done := here.symm.trans carries.done
    have same : (made = layout ∧ text = layout.textUnder master) ∧ error = none := by
      simpa [Outcome.done] using done
    obtain ⟨⟨rfl, rfl⟩, rfl⟩ := same
    exact carried listeners
  wellFormed := carries.wellFormed
  shows := carries.shows
  text_eq := carries.text_eq

namespace Session

variable {μ : Type} {notify : Notifier μ} {master : Master} {outgoing : Outgoing}
  {session before after : Session μ} {region : Region} {planned : Planned}

def tidings (session : Session μ) (change : Change) : List (Nat × Notification) :=
  session.projection.listeners.ids.map (·, ⟨.before, change⟩) ++
    session.projection.listeners.ids.map (·, ⟨.after, change⟩)

def contents (session : Session μ) : List (Nat × Notification) :=
  session.notices.filter fun notice => notice.2.change.kind = .content

theorem change_of_mem_tidings {change : Change} {notice : Nat × Notification}
    (member : notice ∈ session.tidings change) : notice.2.change = change := by
  rcases List.mem_append.mp member with member | member
  · obtain ⟨_, -, rfl⟩ := List.mem_map.mp member
    rfl
  · obtain ⟨_, -, rfl⟩ := List.mem_map.mp member
    rfl

theorem filter_tidings (session : Session μ) (change : Change) :
    ((session.tidings change).filter fun notice => notice.2.change.kind = .content) =
      if change.kind = .content then session.tidings change else [] := by
  split
  · next content =>
    refine List.filter_eq_self.mpr fun notice member => ?_
    simpa [change_of_mem_tidings member] using content
  · next other =>
    refine List.filter_eq_nil_iff.mpr fun notice member => ?_
    simpa [change_of_mem_tidings member] using other

/-- The projection shows more of a region, and the content did not change. -/
structure Enlarges (region : Region) (before after : Session μ) : Prop where
  listeners : after.projection.listeners = before.projection.listeners
  outside : ∀ position, ¬ region.Covers position →
    (after.projection.layout.Shows position ↔ before.projection.layout.Shows position)
  contents : after.contents = before.contents

theorem Enlarges.refl (region : Region) (session : Session μ) : Enlarges region session session :=
  ⟨rfl, fun _ _ => Iff.rfl, rfl⟩

theorem Enlarges.trans {middle : Session μ} (first : Enlarges region before middle)
    (second : Enlarges region middle after) : Enlarges region before after where
  listeners := second.listeners.trans first.listeners
  outside position outside := (second.outside position outside).trans (first.outside position outside)
  contents := second.contents.trans first.contents

theorem conclude_of_carries (announced : session.projection.planned = some planned) {layout : Layout}
    (carries : { session.projection with planned := none }.Carries master.text planned layout) :
    conclude notify master session = .done (report notify master planned.change { session with
      projection := { session.projection with
        planned := none, layout, text := layout.textUnder master.text } }) := by
  simp only [conclude, announced, within, carries.done, Outcome.map, Outcome.done, Outcome.andThen]

theorem conclude_informs (informs : notify.Informs) (drained : session.projection.listeners.Drained)
    (announced : session.projection.planned = some planned) {layout : Layout}
    (carries : { session.projection with planned := none }.Carries master.text planned layout) :
    ∃ after, conclude notify master session = .done after ∧
      after.projection = { session.projection with
        planned := none, layout, text := layout.textUnder master.text } ∧
      after.notices = session.notices ++
        session.projection.listeners.ids.map (·, ⟨.after, planned.change⟩) := by
  rw [conclude_of_carries announced carries, report]
  generalize made : ({ session with projection := _ } : Session μ).record _ = reported
  have projection : reported.projection = { session.projection with
      planned := none, layout, text := layout.textUnder master.text } := by
    rw [← made]
    rfl
  have notices : reported.notices = session.notices := by
    rw [← made, notices_record_applied]
    rfl
  obtain ⟨same, told⟩ := informs master .after planned.change reported (by rw [projection]; exact drained)
  exact ⟨_, rfl, same.trans projection, by rw [told, notices, projection]⟩

theorem undertake_of_open {told : Session μ} (heard : notify master .before planned.change
      (session.update fun projection => { projection with planned := some planned }) = told)
    (opened : told.projection.closed? = none) :
    undertake notify master session planned = conclude notify master told := by
  simp only [undertake, heard, opened]

theorem undertake_informs (informs : notify.Informs) (drained : session.projection.listeners.Drained)
    (sound : session.SoundIdle master.text outgoing) (live : session.projection.disposed = false)
    {layout : Layout} (carries : session.projection.Carries master.text planned layout) :
    ∃ after, undertake notify master session planned = .done after ∧
      after.projection = { session.projection with layout, text := layout.textUnder master.text } ∧
      after.notices = session.notices ++ session.tidings planned.change := by
  obtain ⟨same, notices⟩ := informs master .before planned.change
    (session.update fun projection => { projection with planned := some planned }) drained
  generalize heard : notify master .before planned.change _ = told at same notices
  have opened : told.projection.closed? = none := by
    rw [same]
    simp [Projection.closed?, update, live, sound.whole]
  have announced : told.projection.planned = some planned := by
    rw [same]
    rfl
  have cleared : { told.projection with planned := none } = session.projection := by
    rw [same, ← sound.idle]
    rfl
  have carriesTold : { told.projection with planned := none }.Carries master.text planned layout :=
    cleared ▸ carries
  obtain ⟨after, concluded, projection, notices'⟩ := conclude_informs informs
    (by rw [same]; exact drained) announced carriesTold
  refine ⟨after, (undertake_of_open heard opened).trans concluded, ?_, ?_⟩
  · rw [projection, same]
    simp [update, sound.idle]
  · rw [notices', notices, same, tidings, List.append_assoc]
    rfl

/-- The first hidden part of a region can be filled, and what else is hidden there is left. -/
theorem exists_filling {projection : Projection} (wf : projection.WellFormed master.text)
    (fits : master.length < Offset.bound) (inside : region.Inside master.length) {gap : Region}
    {others : List Region} (hidden : projection.layout.hidden region = gap :: others)
    (edit : Option Edit) :
    ∃ action layout,
      projection.planFill master gap edit = .ok ⟨action, .projection,
        ⟨projection.layout.rank gap.offset, 0⟩, master.text.slice gap, gap, edit⟩ ∧
      projection.Carries master.text ⟨action, .projection,
        ⟨projection.layout.rank gap.offset, 0⟩, master.text.slice gap, gap, edit⟩ layout ∧
      (∀ position, layout.Shows position ↔ projection.layout.Shows position ∨ gap.Covers position) ∧
      (∀ position, gap.Covers position → region.Covers position) ∧
      layout.hidden region = others := by
  have within : region.stop ≤ master.length := Region.inside_iff.mp inside
  have word : region.stop < Offset.bound := Nat.lt_of_le_of_lt within fits
  rcases wf.layout.hidden_cases region with
    ⟨none, -⟩ | ⟨gap', others', found, nonempty, start, stop, unshown⟩
  · cases none.symm.trans hidden
  · obtain ⟨rfl, rfl⟩ := List.cons.inj (found.symm.trans hidden)
    have isGap : projection.layout.IsGap master.length gap' :=
      ⟨nonempty, Nat.le_trans stop within, unshown⟩
    obtain ⟨action, action?, fills, plan⟩ := Projection.exists_planFill_eq wf.layout isGap
      (Region.inside_iff.mpr isGap.inside) edit
    obtain ⟨layout, carries⟩ := wf.exists_carries_fill isGap action? edit
    have shows (position : Nat) : layout.Shows position ↔
        projection.layout.Shows position ∨ gap'.Covers position := by
      rw [carries.shows, Planned.shows_of_fills fills]
    refine ⟨action, layout, plan, carries, shows, fun position covers => ?_, ?_⟩
    · exact ⟨Nat.le_trans start covers.1, Nat.lt_of_lt_of_le covers.2 stop⟩
    · exact wf.layout.hidden_tail carries.wellFormed word found shows

theorem undertake_filling (informs : notify.Informs) (drained : session.projection.listeners.Drained)
    (fits : master.length < Offset.bound) (inside : region.Inside master.length)
    (sound : session.SoundIdle master.text outgoing) (live : session.projection.disposed = false)
    {gap : Region} {others : List Region}
    (hidden : session.projection.layout.hidden region = gap :: others) (edit : Option Edit) :
    ∃ after layout, undertakePlan notify master session
        (session.projection.planFill master gap edit) = .done after ∧
      after.projection = { session.projection with layout, text := layout.textUnder master.text } ∧
      layout.WellFormed master.length ∧
      (∀ position, layout.Shows position ↔
        session.projection.layout.Shows position ∨ gap.Covers position) ∧
      (∀ position, gap.Covers position → region.Covers position) ∧
      layout.hidden region = others ∧
      after.notices = session.notices ++ session.tidings
        ⟨.projection, ⟨session.projection.layout.rank gap.offset, 0⟩, master.text.slice gap, gap,
          edit⟩ := by
  obtain ⟨action, layout, plan, carries, shows, inner, left⟩ :=
    exists_filling sound.wellFormed fits inside hidden edit
  obtain ⟨after, done, projection, notices⟩ := undertake_informs informs drained sound live carries
  exact ⟨after, layout, by rw [plan]; exact done, projection, carries.wellFormed, shows, inner, left,
    notices⟩

theorem undertake_gap (informs : notify.Informs) (drained : session.projection.listeners.Drained)
    (fits : master.length < Offset.bound) (inside : region.Inside master.length)
    (sound : session.SoundIdle master.text outgoing) (live : session.projection.disposed = false)
    {gap : Region} {others : List Region}
    (hidden : session.projection.layout.hidden region = gap :: others)
    (edit : Option Edit) :
    ∃ after, undertakePlan notify master session (session.projection.planFill master gap edit) =
        .done after ∧ after.SoundIdle master.text outgoing ∧ after.projection.disposed = false ∧
      Enlarges region session after ∧ after.projection.layout.hidden region = others := by
  obtain ⟨after, layout, done, projection, wf, shows, inner, left, notices⟩ :=
    undertake_filling informs drained fits inside sound live hidden edit
  refine ⟨after, done, ?_, ?_, ⟨?_, fun position outside => ?_, ?_⟩, ?_⟩
  · unfold SoundIdle
    rw [projection]
    exact { sound with
      wellFormed := ⟨wf, rfl⟩
      current := fun _ planned => nomatch sound.idle.symm.trans planned
      cleared := fun disposed => nomatch live.symm.trans disposed }
  · rw [projection]
    exact live
  · rw [projection]
  · rw [projection]
    exact (shows position).trans (or_iff_left fun covers => outside (inner position covers))
  · rw [contents, notices, List.filter_append, filter_tidings]
    exact List.append_nil _
  · rw [projection]
    exact left

/-- With a round for each hidden part of a region and one more, all of it is shown. -/
theorem fillGaps_informs (informs : notify.Informs) (drained : session.projection.listeners.Drained)
    (fits : master.length < Offset.bound) (inside : region.Inside master.length)
    (sound : session.SoundIdle master.text outgoing) (live : session.projection.disposed = false)
    (edit : Option Edit) (limit : Nat) {rounds : Nat}
    (enough : (session.projection.layout.hidden region).length < rounds) :
    ∃ after, fillGaps notify master region edit limit rounds session = .done after ∧
      after.SoundIdle master.text outgoing ∧ after.projection.disposed = false ∧
      Enlarges region session after ∧
      ∀ position, region.Covers position → after.projection.layout.Shows position := by
  -- Each round shows the first hidden part, so that the others are what is hidden next.
  induction rounds generalizing session with
  | zero => exact absurd enough (Nat.not_lt_zero _)
  | succ rounds ih =>
    rcases sound.wellFormed.layout.hidden_cases region with
      ⟨none, shown⟩ | ⟨gap, others, found, -⟩
    · exact ⟨session, by simp [fillGaps, Layout.firstHidden?, none], sound, live, .refl _ _,
        shown (Region.stop_lt_of_inside inside fits)⟩
    · obtain ⟨middle, done, sound', live', enlarges, hidden⟩ :=
        undertake_gap informs drained fits inside sound live found edit
      have fewer : (middle.projection.layout.hidden region).length < rounds := by
        rw [found, List.length_cons] at enough
        rw [hidden]
        exact Nat.lt_of_succ_lt_succ enough
      obtain ⟨after, filled, soundIdle, stillLive, further, shown⟩ :=
        ih (by rw [enlarges.listeners]; exact drained) sound' live' fewer
      refine ⟨after, ?_, soundIdle, stillLive, enlarges.trans further, shown⟩
      simp only [fillGaps, Layout.firstHidden?, found, List.head?_cons, done, Outcome.done_andThen,
        filled]

/-- Under the usual bound, any region can be filled. -/
theorem fill_informs (informs : notify.Informs) (drained : session.projection.listeners.Drained)
    (fits : master.length < Offset.bound) (inside : region.Inside master.length)
    (sound : session.SoundIdle master.text outgoing) (live : session.projection.disposed = false)
    (usual : session.projection.options.bound = {}) (edit : Option Edit) :
    ∃ after, fill notify master region edit session = .done after ∧
      after.SoundIdle master.text outgoing ∧ after.projection.disposed = false ∧
      Enlarges region session after ∧
      ∀ position, region.Covers position → after.projection.layout.Shows position := by
  have few := sound.wellFormed.layout.length_hidden_le_limit (Region.stop_lt_of_inside inside fits)
  rw [← usual] at few
  exact fillGaps_informs informs drained fits inside sound live edit _ (Nat.lt_succ_of_le few)

end Session

end TextProjection
