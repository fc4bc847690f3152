import TextProjection.Proofs.Session.Closed
import TextProjection.Proofs.Session.Silence
import TextProjection.Proofs.Solo

/-! A disposed projection falls silent. Over any run, those who were subscribed to it are never called
again, and neither is anybody else, unless a listener subscribes to it once it is disposed.
-/

set_option autoImplicit false

namespace TextProjection

variable {μ : Type}

namespace Solo

variable {audience : Audience μ} {free : Prop} {allowed : Nat → Prop} {solo first last : Solo μ}

section
variable {region : Region} {text : Text}

theorem run_prepare : (solo.run audience (.prepare region text)).1.session = solo.session := by
  cases prepared : solo.master.prepare region text <;> simp only [run, runBy, prepared]

theorem run_commit {edit : Edit} :
    (solo.run audience (.commit edit)).1.session = solo.session := by
  cases committed : solo.master.commit edit <;> simp only [run, runBy, committed]

theorem run_rawEdit : (solo.run audience (.rawEdit region text)).1.session = solo.session := by
  cases replaced : solo.master.replace region text <;> simp only [run, runBy, replaced]

end

theorem run_of_closed {error : Error} (closed : solo.session.projection.closed? = some error)
    (command : Command) :
    (solo.run audience command).1.session = solo.session ∨
      ∃ request, command = .act (.request request) ∧ ¬ request.Ranges := by
  cases command with
  | act act =>
    rcases Session.act_of_closed closed act with same | ⟨request, rfl, casual⟩
    · exact .inl same
    · exact .inr ⟨request, rfl, casual⟩
  | edit region text => exact .inl (Session.editMaster_of_closed closed)
  | replace image text => exact .inl (congrArg (·.state.2) (Session.replace_of_closed closed))
  | set text => exact .inl (congrArg (·.state.2) (Session.set_of_closed closed))
  | prepare region text => exact .inl run_prepare
  | commit edit => exact .inl run_commit
  | rawEdit region text => exact .inl run_rawEdit

/-- A disposed projection stays disposed, and nothing happens to it any more. -/
theorem Ensues.of_disposed (ensues : Ensues audience first last)
    (disposed : first.session.projection.disposed = true) :
    last.session.journal = first.session.journal ∧ last.session.projection.disposed = true := by
  induction ensues with
  | first => exact ⟨rfl, disposed⟩
  | run _ command ih =>
    obtain ⟨journal, disposed⟩ := ih
    rcases run_of_closed (Projection.closed?_of_disposed disposed) command with
      same | ⟨request, rfl, casual⟩
    · rw [same]
      exact ⟨journal, disposed⟩
    · obtain ⟨journal', -, disposed', -⟩ := Session.request_of_casual casual
      exact ⟨journal'.trans journal, disposed' disposed⟩

theorem run_discreet (refrains : audience.Refrains free) (discreet : solo.session.Discreet free allowed)
    (command : Command) : (solo.run audience command).1.session.Discreet free allowed := by
  cases live : solo.session.projection.disposed with
  | true =>
    rcases run_of_closed (Projection.closed?_of_disposed live) command with
      same | ⟨request, rfl, casual⟩
    · rwa [same]
    · exact discreet.requested (publish audience) solo.master casual
  | false =>
    have hushed : solo.session.Hushed free allowed :=
      ⟨discreet, fun disposed => nomatch live.symm.trans disposed⟩
    have tell (master : Master) (phase : Phase) (change : Change) (session : Session μ)
        (hushed : session.Hushed free allowed) :
        (publish audience master phase change session).Hushed free allowed :=
      Session.publish_hushed refrains master phase change hushed
    have coupling := Session.coupling_hushed tell
    cases command with
    | act act =>
      exact (Session.act_hushed tell solo.master hushed fun disposed =>
        nomatch live.symm.trans disposed).toDiscreet
    | edit region text =>
      exact (Session.editMaster_both coupling solo.master ⟨rfl, hushed⟩ region
        text).state.2.2.toDiscreet
    | replace image text =>
      exact (Session.replace_both coupling solo.master ⟨rfl, hushed⟩ image text).state.2.2.toDiscreet
    | set text =>
      exact (Session.replace_both coupling solo.master ⟨rfl, hushed⟩ _ text).state.2.2.toDiscreet
    | prepare region text => rwa [run_prepare]
    | commit edit => rwa [run_commit]
    | rawEdit region text => rwa [run_rawEdit]

theorem Ensues.discreet (refrains : audience.Refrains free) (ensues : Ensues audience first last)
    (discreet : first.session.Discreet free allowed) : last.session.Discreet free allowed := by
  induction ensues with
  | first => exact discreet
  | run _ command ih => exact run_discreet refrains ih command

theorem start_discreet (text : Text) (options : Options) (memory : μ) (allowance : Nat)
    (coming : free → ∀ listener, allowed listener) :
    (start text options memory allowance).session.Discreet free allowed where
  told _ member := absurd member List.not_mem_nil
  coming all listener _ := coming all listener
  given _ member := absurd member List.not_mem_nil

/-- A disposed projection falls silent. Those who were subscribed while it was in use are not called any
more, whatever its listeners do. If they do not subscribe anybody to a disposed projection, nobody is
called at all. Later commands call nobody in any case. -/
theorem silent_of_disposed {text : Text} {options : Options} {memory : μ} {allowance : Nat}
    (reaches : Ensues audience (start text options memory allowance) first)
    (ensues : Ensues audience first last) :
    (first.session.projection.disposed = false →
      ∀ delivery, .delivered delivery ∈ last.session.journal →
        delivery.projection.disposed = true →
          delivery.listener ∉ first.session.projection.listeners.ids) ∧
    (audience.Refrains False → ∀ delivery, .delivered delivery ∈ last.session.journal →
      delivery.projection.disposed = false) ∧
    (first.session.projection.disposed = true → last.session.journal = first.session.journal ∧
      last.session.projection.disposed = true) := by
  refine ⟨fun live delivery member disposed subscribed => ?_, fun refrains delivery member => ?_,
    ensues.of_disposed⟩
  · -- Nobody was called on a disposed projection until now, and newcomers have greater numbers.
    have free := audience.refrains_of_free trivial
    have before : first.session.Discreet True fun _ => True := reaches.discreet free
      (start_discreet text options memory allowance fun _ _ => trivial)
    have here : first.session.Discreet True (first.session.projection.listeners.nextId ≤ ·) :=
      ⟨fun delivery member disposed =>
        (nomatch live.symm.trans (before.told delivery member disposed).1),
        fun _ _ next => next, before.given⟩
    have newcomer := ((ensues.discreet free here).told delivery member disposed).2
    exact absurd (before.given _ subscribed) (Nat.not_lt.mpr newcomer)
  · have silent : last.session.Discreet False fun _ => False := ensues.discreet refrains
      (reaches.discreet refrains (start_discreet text options memory allowance False.elim))
    cases disposed : delivery.projection.disposed with
    | false => rfl
    | true => exact (silent.told delivery member disposed).2.elim

/-- On being told of a change that was made, a listener disposes of the projection, and for the first
time it subscribes somebody else. -/
def deserting : Audience Bool := fun gone delivery =>
  if gone ∨ delivery.notification.phase = .before then .rest gone
  else .act (.request .dispose) fun _ _ => .act (.request .subscribe) fun _ _ => .rest true

def deserted (commands : List Command) : Solo Bool :=
  (.act (.request .subscribe) :: commands).foldl (fun solo command => (solo.run deserting command).1)
    (start ['a', 'b'] {} false 2)

/-- The listener itself is not called any more. -/
theorem silent_of_disposed_deserted :
    let after := deserted [.act (.request (.add ⟨0, 1⟩))]
    (deserted []).session.projection.listeners.ids = [0] ∧
      after.session.projection.disposed = true ∧
      ∀ delivery, .delivered delivery ∈ after.session.journal →
        delivery.projection.disposed = true → delivery.listener ∉ [0] := by
  intro after
  have reaches : Ensues deserting (start ['a', 'b'] {} false 2) (deserted []) :=
    .run .first (.act (.request .subscribe))
  have ensues : Ensues deserting (deserted []) after := .run .first (.act (.request (.add ⟨0, 1⟩)))
  exact ⟨by decide, by decide, (silent_of_disposed reaches ensues).1 rfl⟩

def toldLate : Entry → Bool
  | .applied _ => false
  | .delivered delivery => delivery.projection.disposed

/-- The one that it subscribed is called within the same addition, although the projection is disposed
by then. -/
theorem delivered_of_deserted :
    ∃ delivery, .delivered delivery ∈ (deserted [.act (.request (.add ⟨0, 1⟩))]).session.journal ∧
      delivery.projection.disposed = true := by
  have found : (deserted [.act (.request (.add ⟨0, 1⟩))]).session.journal.any toldLate = true := by
    decide
  obtain ⟨entry, member, disposed⟩ := List.any_eq_true.mp found
  cases entry with
  | applied change => cases disposed
  | delivered delivery => exact ⟨delivery, member, disposed⟩

end Solo

end TextProjection
