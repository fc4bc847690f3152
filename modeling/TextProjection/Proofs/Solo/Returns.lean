import TextProjection.Proofs.Session.Effort
import TextProjection.Proofs.Solo

/-! Every call returns, whatever the listeners do meanwhile, as long as they do something only so often.
-/

set_option autoImplicit false

namespace TextProjection.Solo

variable {μ : Type} {audience : Audience μ} {solo : Solo μ}

/-- The projection is in use, and its listeners were told everything. An edit may have been announced,
but no range change is under way. -/
structure LiveUnplanned (solo : Solo μ) : Prop where
  wellFormed : solo.session.projection.WellFormed solo.master.text
  live : solo.session.projection.disposed = false
  whole : solo.session.projection.broken = false
  idle : solo.session.projection.planned = none
  still : solo.session.projection.outgoing = .none
  drained : solo.session.projection.listeners.Drained

theorem LiveUnplanned.forgotten (unplanned : solo.LiveUnplanned) :
    solo.session.projection.forget.SoundIdle solo.master.text .none := by
  have wf : solo.session.projection.forget.WellFormed solo.master.text :=
    unplanned.wellFormed.congr rfl rfl
  have sound := wf.soundIdle unplanned.live unplanned.whole rfl unplanned.idle
  rwa [show solo.session.projection.forget.outgoing = .none from unplanned.still] at sound

theorem LiveUnplanned.soundIdle (unplanned : solo.LiveUnplanned)
    (free : solo.session.projection.pending = none) :
    solo.SoundIdle := by
  have sound := unplanned.wellFormed.soundIdle unplanned.live unplanned.whole free unplanned.idle
  rwa [unplanned.still] at sound

theorem run_drained {command : Command} (heard : command.Heard)
    (drained : solo.session.projection.listeners.Drained) :
    (solo.run audience command).1.session.projection.listeners.Drained := by
  have coupling := Session.coupling_drained audience
  cases heard with
  | request request =>
    by_cases ranges : request.Ranges
    · have pairing := coupling.pairing solo.master
      rcases Session.request_both pairing ranges rfl (Session.conclude_both pairing ⟨rfl, drained⟩) with
        ⟨error, refused, -⟩ | ⟨⟨-, after⟩, -⟩
      · change (solo.session.request (publish audience) solo.master
          request).1.projection.listeners.Drained
        rw [refused]
        exact drained
      · exact after
    · cases request with
      | add _ | remove _ | reset _ => exact absurd trivial ranges
      | setAutoExpand _ | subscribe | unsubscribe _ => exact drained
      | dispose =>
        change solo.session.projection.dispose.listeners.Drained
        unfold Projection.dispose
        split
        · exact drained
        · exact ⟨rfl, drained.2⟩
  | edit region text =>
    exact (Session.editMaster_both coupling solo.master ⟨rfl, drained⟩ region text).state.2.2
  | replace image text =>
    exact (Session.replace_both coupling solo.master ⟨rfl, drained⟩ image text).state.2.2
  | set text => exact (Session.replace_both coupling solo.master ⟨rfl, drained⟩ _ text).state.2.2

section
variable (requests : audience.Requests) (unplanned : solo.LiveUnplanned)
  (fits : solo.master.length < Offset.bound) {size : Nat} (small : solo.master.length ≤ size)

include requests unplanned fits

theorem journal_replace_le {image : Region} {text : Text}
    (fitsAfter : (solo.session.replace (publish audience) solo.master image text).state.1.length <
      Offset.bound)
    (smallAfter : (solo.session.replace (publish audience) solo.master image text).state.1.length ≤
      size) :
    (solo.session.replace (publish audience) solo.master image text).state.2.journal.length ≤
      solo.session.journal.length + solo.session.effort size := by
  cases pending : solo.session.projection.pending with
  | none =>
    exact ((Session.replace_publish_costs requests fits (unplanned.soundIdle pending) fitsAfter
      smallAfter).mono (Nat.le_mul_of_pos_left _ (Nat.succ_pos _))).journal_le unplanned.drained
  | some found =>
    obtain ⟨error, refused⟩ : ∃ error, solo.session.replace (publish audience) solo.master image text =
      .fail (solo.master, solo.session) error := Session.replace_refused pending
    rw [refused]
    exact Nat.le_add_right _ _

include small

/-- Only so much can come of a command. -/
theorem journal_run_le {command : Command} (heard : command.Heard)
    (fitsAfter : (solo.run audience command).1.master.length < Offset.bound)
    (smallAfter : (solo.run audience command).1.master.length ≤ size) :
    (solo.run audience command).1.session.journal.length ≤
      solo.session.journal.length + solo.session.effort size := by
  cases heard with
  | request request =>
    change (solo.session.request (publish audience) solo.master request).1.journal.length ≤ _
    by_cases ranges : request.Ranges
    · cases pending : solo.session.projection.pending with
      | none =>
        exact (Session.request_publish_costs requests fits small (unplanned.soundIdle pending)
          ranges).journal_le unplanned.drained
      | some found =>
        obtain ⟨error, refuses⟩ := Projection.refuses_of_pending (Option.isSome_of_eq_some pending)
        rw [Session.request_of_refused refuses ranges]
        exact Nat.le_add_right _ _
    · rw [(Session.request_of_casual ranges).1]
      exact Nat.le_add_right _ _
  | edit region text =>
    change (solo.session.editMaster (publish audience) solo.master region
      text).state.1.length < Offset.bound at fitsAfter
    change (solo.session.editMaster (publish audience) solo.master region
      text).state.1.length ≤ size at smallAfter
    change (solo.session.editMaster (publish audience) solo.master region
      text).state.2.journal.length ≤ _
    by_cases inside : region.Inside solo.master.length
    · have sound : (solo.session.update Projection.forget).SoundIdle solo.master.text .none :=
        unplanned.forgotten
      rw [← Session.editMaster_forget unplanned.live unplanned.whole unplanned.idle inside] at *
      exact (Session.editMaster_publish_costs requests fits small sound unplanned.live inside fitsAfter
        smallAfter).journal_le unplanned.drained
    · rw [Session.editMaster_refused inside]
      exact Nat.le_add_right _ _
  | replace image text => exact journal_replace_le requests unplanned fits fitsAfter smallAfter
  | set text => exact journal_replace_le requests unplanned fits fitsAfter smallAfter

end

/-- Every call returns, and nothing is on its way to the listeners then. What was done and told
meanwhile depends on how long the text is, how many listeners there are and how often they may act,
but not on any bound. The additions that it may come to, whether at once or by listeners, end by
themselves, and so does what is published. -/
theorem returns_of_liveUnplanned (requests : audience.Requests) (unplanned : solo.LiveUnplanned)
    (fits : solo.master.length < Offset.bound) {command : Command} (heard : command.Heard)
    (fitsAfter : (solo.run audience command).1.master.length < Offset.bound) :
    let after := (solo.run audience command).1
    (after.session.projection.listeners.queue = [] ∧
      after.session.projection.listeners.dispatching = false) ∧
    after.session.journal.length ≤ solo.session.journal.length +
      solo.session.effort (max solo.master.length after.master.length) ∧
    (∀ (master : Master) (during : Session μ) outgoing region edit, master.length < Offset.bound →
      during.SoundIdle master.text outgoing → region.Inside master.length →
      during.Completes (publish audience) master region edit ∧
        during.Completes Session.enqueue master region edit) ∧
    ∀ (master : Master) (during : Session μ) phase change,
      during.Dispatches audience master phase change := by
  refine ⟨run_drained heard unplanned.drained, ?_,
    fun master during outgoing region edit fits sound inside => ?_,
    fun master during phase change => Session.publish_dispatches audience master phase change during⟩
  · exact journal_run_le requests unplanned fits (Nat.le_max_left _ _) heard fitsAfter
      (Nat.le_max_right _ _)
  · exact ⟨Session.fillGaps_completes (Session.publish_paid audience master) fits inside
        ((Session.publish_respects requests).maintains outgoing) sound edit,
      Session.fillGaps_completes (Session.enqueue_paid master) fits inside
        (Session.enqueue_maintains Projection.upkeep_sound) sound edit⟩

def eager : Solo Bool :=
  ((start ['a', 'b', 'c', 'd'] { bound := ⟨Offset.bound - 1, Offset.bound - 1⟩ } false 1).run
    (.once (.add ⟨2, 1⟩)) (.act (.request .subscribe))).1

theorem eager_liveUnplanned : eager.LiveUnplanned where
  wellFormed := ⟨Layout.WellFormed.nil, rfl⟩
  live := rfl
  whole := rfl
  idle := rfl
  still := rfl
  drained := ⟨rfl, rfl⟩

theorem returns_of_liveUnplanned_eager :
    let after := (eager.run (.once (.add ⟨2, 1⟩)) (.act (.request (.add ⟨0, 1⟩)))).1
    (after.session.projection.listeners.queue = [] ∧
      after.session.projection.listeners.dispatching = false) ∧
    after.session.journal.length ≤ 90 := by
  have effort : eager.session.journal.length + eager.session.effort (max 4 4) = 90 := by decide
  have fits : eager.master.length < Offset.bound := by decide
  obtain ⟨drained, told, -⟩ := returns_of_liveUnplanned (Audience.once_requests (.add ⟨2, 1⟩))
    eager_liveUnplanned fits
    (.request (.add ⟨0, 1⟩)) fits
  exact ⟨drained, effort ▸ told⟩

end TextProjection.Solo
