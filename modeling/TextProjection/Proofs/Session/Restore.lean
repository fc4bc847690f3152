import TextProjection.Proofs.Session.Limit
import TextProjection.Proofs.Session.Removal

/-! Showing a range and hiding it again, and the other way round. Either way the session is left as it
was, because its fragments are determined by what they show.
-/

set_option autoImplicit false

namespace TextProjection

variable {μ : Type}

theorem Layout.WellFormed.hidden_of_unshown {layout : Layout} {size : Nat} {region : Region}
    (wf : layout.WellFormed size) (fits : size < Offset.bound) (inside : region.stop ≤ size)
    (nonempty : 0 < region.length)
    (hidden : ∀ position, region.Covers position → ¬ layout.Shows position) :
    layout.hidden region = [region] := by
  have whole : Runs (fun position => ¬ layout.Shows position) region.offset region.stop [region] :=
    ⟨⟨nonempty, Nat.le_refl _, Nat.le_refl _⟩,
      fun position low below => absurd low (Nat.not_le.mpr below), hidden,
      fun room => absurd room (Nat.lt_irrefl _),
      fun position low below => absurd low (Nat.not_le.mpr below)⟩
  exact (wf.runs_hidden (Nat.lt_of_le_of_lt inside fits)).unique whole

namespace Session

variable {notify : Notifier μ} {master : Master} {session after : Session μ} {region : Region}

theorem LiveIdle.exists_add (informs : notify.Informs) (fits : master.length < Offset.bound)
    (liveIdle : session.LiveIdle master.text) (inside : region.Inside master.length)
    (room : 1 ≤ session.projection.options.bound.minimum) (nonempty : 0 < region.length)
    (hidden : ∀ position, region.Covers position → ¬ session.projection.layout.Shows position) :
    ∃ after, add notify master region session = .done after ∧
      session.projection.Reshapes after.projection ∧
      after.projection.WellFormed master.text ∧
      ∀ position, after.projection.layout.Shows position ↔
        session.projection.layout.Shows position ∨ region.Covers position := by
  have sole := liveIdle.sound.wellFormed.layout.hidden_of_unshown fits (Region.inside_iff.mp inside)
    nonempty hidden
  generalize bounded : session.projection.options.bound.limit session.projection.layout.size = limit
  have enough : 1 < limit + 1 := by
    have least : session.projection.options.bound.minimum ≤ limit := bounded ▸ Nat.le_max_right _ _
    omega
  have start (position : Nat) : session.projection.layout.Shows position ↔
      session.projection.layout.Shows position ∨ Region.Cover [] position := by
    simp [Region.Cover]
  obtain ⟨after, filled, reshapes, wf, shows, -⟩ :=
    fillGaps_exact informs fits inside liveIdle none limit (limit + 1) start
  rw [sole, List.length_singleton, if_pos enough] at filled
  refine ⟨after, ?_, reshapes, wf, fun position => ?_⟩
  · rw [liveIdle.add_eq inside, fill, bounded, filled]
    rfl
  · rw [shows, sole]
    simp [Region.Cover]

theorem LiveIdle.change_of_empty (liveIdle : session.LiveIdle master.text)
    (inside : region.Inside master.length) (empty : region.length = 0) :
    add notify master region session = .done session ∧
      remove notify master region session = .done session := by
  constructor
  · rw [liveIdle.add_eq inside, fill_of_empty empty]
    rfl
  · rw [remove, liveIdle.changeRanges_eq inside]
    simp only [Region.isEmpty, empty, beq_self_eq_true, if_true]
    rfl

/-- Where the same is shown in the end, and anything at all, the projection is the same. -/
theorem LiveIdle.eq_of_shows (liveIdle : session.LiveIdle master.text)
    (reshapes : session.projection.Reshapes after.projection)
    (wf : after.projection.WellFormed master.text)
    (shows : ∀ position, after.projection.layout.Shows position ↔
      session.projection.layout.Shows position)
    (some : ∃ position, session.projection.layout.Shows position) :
    after.projection = session.projection := by
  obtain ⟨position, shown⟩ := some
  have layouts : after.projection.layout = session.projection.layout :=
    wf.layout.eq_of_shows liveIdle.sound.wellFormed.layout shows ((shows position).mpr shown)
  refine reshapes.eq layouts ?_
  rw [wf.text_eq, liveIdle.sound.wellFormed.text_eq, layouts]

/-- Showing and hiding undo each other. If nothing of a range is shown, but something else is, then
showing the range and hiding it again leaves the projection as it was. If all of it is shown, so does
hiding it and showing it again. -/
theorem add_remove_restores {audience : Audience μ} (passive : audience.Passive)
    (fits : master.length < Offset.bound) (liveIdle : session.LiveIdle master.text)
    (inside : region.Inside master.length)
    (room : 1 ≤ session.projection.options.bound.minimum) :
    ((∀ position, region.Covers position → ¬ session.projection.layout.Shows position) →
      (∃ position, session.projection.layout.Shows position) →
      let added := add (publish audience) master region session
      let removed := remove (publish audience) master region added.state
      added.error = none ∧ removed.error = none ∧ removed.state.projection = session.projection) ∧
    ((∀ position, region.Covers position → session.projection.layout.Shows position) →
      let removed := remove (publish audience) master region session
      let added := add (publish audience) master region removed.state
      removed.error = none ∧ added.error = none ∧ added.state.projection = session.projection) := by
  have informs := publish_informs passive
  rcases Nat.eq_zero_or_pos region.length with empty | nonempty
  · obtain ⟨added, removed⟩ : add (publish audience) master region session = .done session ∧
        remove (publish audience) master region session = .done session :=
      liveIdle.change_of_empty inside empty
    simp only [added, removed, Outcome.done]
    exact ⟨fun _ _ => ⟨trivial, trivial, trivial⟩, fun _ => ⟨trivial, trivial, trivial⟩⟩
  constructor
  · intro hidden some
    obtain ⟨middle, added, reshapes, wf, shows⟩ :=
      liveIdle.exists_add informs fits inside room nonempty hidden
    have liveIdleMiddle := liveIdle.reshaped reshapes wf
    obtain ⟨after, -, removed, -, loses, -⟩ := liveIdleMiddle.exists_remove informs fits nonempty
      fun position covers => (shows position).mpr (.inr covers)
    simp only [added, removed, Outcome.done]
    refine ⟨trivial, trivial, liveIdle.eq_of_shows (reshapes.trans loses.reshapes) loses.wellFormed
      (fun position => ?_) some⟩
    rw [loses.shows, shows]
    have apart := hidden position
    tauto
  · intro shown
    obtain ⟨middle, -, removed, -, loses, -⟩ := liveIdle.exists_remove informs fits nonempty shown
    have liveIdleMiddle := liveIdle.reshaped loses.reshapes loses.wellFormed
    have roomMiddle : 1 ≤ middle.projection.options.bound.minimum := by
      obtain ⟨_, _, same⟩ := loses.reshapes
      rw [same]
      exact room
    obtain ⟨after, added, reshapes, wf, shows⟩ := liveIdleMiddle.exists_add informs fits inside
      roomMiddle nonempty fun position covers here => ((loses.shows position).mp here).2 covers
    simp only [added, removed, Outcome.done]
    refine ⟨trivial, trivial, liveIdle.eq_of_shows (loses.reshapes.trans reshapes) wf
      (fun position => ?_) ⟨_, shown _ (Runs.covers_offset nonempty)⟩⟩
    rw [shows, loses.shows]
    have all := shown position
    tauto

/-- The character between two fragments is shown, which makes them one, and hidden again. -/
theorem add_remove_restores_between :
    let added := add (publish .counting) { text := ['a', 'b', 'c', 'd', 'e'] } ⟨2, 1⟩ twoEnds
    let removed := remove (publish .counting) { text := ['a', 'b', 'c', 'd', 'e'] } ⟨2, 1⟩ added.state
    added.error = none ∧ removed.error = none ∧ removed.state.projection = twoEnds.projection := by
  have fits : Master.length { text := ['a', 'b', 'c', 'd', 'e'] } < Offset.bound := by decide
  have hidden (position : Nat) (covers : Region.Covers ⟨2, 1⟩ position) :
      ¬ twoEnds.projection.layout.Shows position := by
    obtain rfl : position = 2 := Nat.le_antisymm (Nat.le_of_lt_succ covers.2) covers.1
    decide
  exact (add_remove_restores Audience.counting_passive fits twoEnds_usualIdle.liveIdle
    (by decide : Region.Inside ⟨2, 1⟩ _) (by decide)).1 hidden ⟨0, by decide⟩

end Session

end TextProjection
