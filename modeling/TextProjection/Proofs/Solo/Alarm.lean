import TextProjection.Proofs.Session.Alarm
import TextProjection.Proofs.Solo.Silence

/-! Faults come to light. A call during which the announcement of a range change breaks the projection
is answered with a fault, and from then on so is every call that goes through the projection, which
stays as it is.
-/

set_option autoImplicit false

namespace TextProjection.Solo

variable {μ : Type} {audience : Audience μ} {solo first last : Solo μ}

def plain (solo : Solo (μ × Bool)) : Solo μ := ⟨solo.master, solo.session.plain⟩

def runAlarmed (audience : Audience μ) (solo : Solo μ) (command : Command) :
    Solo (μ × Bool) × Reply :=
  runBy (Session.alarmed (publish audience)) ⟨solo.master, solo.session.alarm⟩ command

/-- The command goes through the projection, and if it edits the master, then inside its text. -/
def Command.Uses (master : Master) : Command → Prop
  | .act (.request request) => request.Ranges
  | .act (.editCopy region _) | .edit region _ => region.Inside master.length
  | .act _ | .replace _ _ | .set _ => True
  | .prepare _ _ | .commit _ | .rawEdit _ _ => False

section

variable {region : Region} {text : Text}

/-- The alarm changes nothing. -/
theorem plain_runAlarmed (audience : Audience μ) (solo : Solo μ) (command : Command) :
    (solo.runAlarmed audience command).1.plain = (solo.run audience command).1 ∧
      (solo.runAlarmed audience command).2 = (solo.run audience command).2 := by
  have coupling := Session.coupling_plain (publish audience)
  have same : solo.session.alarm.plain = solo.session := rfl
  have replied {one : Outcome (Master × Session (μ × Bool))} {other : Outcome (Master × Session μ)}
      (both : one.Both (Session.Beside fun left right => left.plain = right) other) :
      (one.map ofPair).reply.1.plain = (other.map ofPair).reply.1 ∧
        (one.map ofPair).reply.2 = (other.map ofPair).reply.2 := by
    obtain ⟨error, master, session⟩ := both
    refine ⟨?_, by simp only [Outcome.reply, Outcome.map, error]⟩
    simp only [Outcome.reply, Outcome.map, plain, ofPair, master, session]
  cases command with
  | act act =>
    have casual (request : Request) (casual : ¬ request.Ranges) :
        let alarmed := solo.session.alarm.request (Session.alarmed (publish audience)) solo.master request
        alarmed.1.plain = (solo.session.request (publish audience) solo.master request).1 ∧
          alarmed.2 = (solo.session.request (publish audience) solo.master request).2 := by
      cases request with
      | add region | remove region | reset region => exact absurd trivial casual
      | setAutoExpand on | subscribe | unsubscribe listener | dispose => exact ⟨rfl, rfl⟩
    obtain ⟨session, reply⟩ := Session.act_both coupling solo.master same fun request _ => casual request
    exact ⟨congrArg (Solo.mk solo.master) session, reply⟩
  | edit region text => exact replied (Session.editMaster_both coupling solo.master same region text)
  | replace image text => exact replied (Session.replace_both coupling solo.master same image text)
  | set text => exact replied (Session.replace_both coupling solo.master same _ text)
  | prepare region text =>
    simp only [runAlarmed, run, runBy]
    split <;> exact ⟨rfl, rfl⟩
  | commit edit =>
    simp only [runAlarmed, run, runBy]
    split <;> exact ⟨rfl, rfl⟩
  | rawEdit region text =>
    simp only [runAlarmed, run, runBy]
    split <;> exact ⟨rfl, rfl⟩

/-- If the alarm goes off in the course of a command, the reply is a fault. -/
theorem runAlarmed_surfaces (foresees : solo.session.projection.Foresees) (command : Command)
    (rang : (solo.runAlarmed audience command).1.session.memory.2 = true) :
    ∃ fault, (solo.runAlarmed audience command).2 = .error (.inconsistent fault) := by
  have anticipates := Session.publish_foresees audience
  have quiet : solo.session.alarm.memory.2 = false := rfl
  cases command with
  | act act => exact Session.act_surfaces anticipates solo.master quiet foresees act rang
  | edit region text =>
    exact (Session.editMaster_surfaces anticipates solo.master quiet foresees region text).reply rang
  | replace image text =>
    exact (Session.replace_surfaces anticipates solo.master quiet foresees image text).reply rang
  | set text =>
    exact (Session.replace_surfaces anticipates solo.master quiet foresees _ text).reply rang
  | prepare region text =>
    simp only [runAlarmed, runBy] at rang
    split at rang <;> cases rang
  | commit edit =>
    simp only [runAlarmed, runBy] at rang
    split at rang <;> cases rang
  | rawEdit region text =>
    simp only [runAlarmed, runBy] at rang
    split at rang <;> cases rang

/-- Over every run, nothing but a change of the content is foreseen of an edit. -/
theorem Ensues.foresees (ensues : Ensues audience first last)
    (foresees : first.session.projection.Foresees) : last.session.projection.Foresees := by
  induction ensues with
  | first => exact foresees
  | @run solo _ command ih =>
    have anticipates := Session.publish_foresees audience
    have coupling := Session.coupling_foresees anticipates
    cases command with
    | act act => exact Session.act_foresees anticipates solo.master act ih
    | edit region text =>
      exact (Session.editMaster_both coupling solo.master ⟨rfl, ih⟩ region text).state.2.2
    | replace image text =>
      exact (Session.replace_both coupling solo.master ⟨rfl, ih⟩ image text).state.2.2
    | set text => exact (Session.replace_both coupling solo.master ⟨rfl, ih⟩ _ text).state.2.2
    | prepare region text => rwa [run_prepare]
    | commit edit => rwa [run_commit]
    | rawEdit region text => rwa [run_rawEdit]

end

section

variable (live : solo.session.projection.disposed = false)
  (broken : solo.session.projection.broken = true)

include live broken

theorem run_of_unusable {command : Command} (uses : command.Uses solo.master) :
    (solo.run audience command).1.session = solo.session ∧
      (solo.run audience command).2 = .error (.inconsistent .unusable) := by
  have closed := Projection.closed?_of_broken live broken
  have replied {σ : Type} {outcome : Outcome σ}
      (failed : outcome.error = some (.inconsistent .unusable)) :
      outcome.reply.2 = .error (.inconsistent .unusable) := by
    rw [Outcome.reply, failed]
    rfl
  constructor
  · rcases run_of_closed closed command with same | ⟨request, rfl, casual⟩
    · exact same
    · exact absurd uses casual
  · cases command with
    | act act =>
      cases act with
      | request request => exact congrArg Prod.snd (Session.request_of_closed closed uses)
      | anticipate edit =>
        exact replied (congrArg Outcome.error (Session.anticipate_of_unusable live broken))
      | confirm edit =>
        exact replied (congrArg Outcome.error (Session.confirm_of_unusable live broken))
      | editCopy region text => exact replied (Session.editMaster_of_unusable live broken uses)
      | replaceCopy image text =>
        exact replied (congrArg Outcome.error (Session.replace_of_closed closed))
    | edit region text => exact replied (Session.editMaster_of_unusable live broken uses)
    | replace image text => exact replied (congrArg Outcome.error (Session.replace_of_closed closed))
    | set text => exact replied (congrArg Outcome.error (Session.set_of_closed closed))
    | prepare _ _ | commit _ | rawEdit _ _ => exact uses.elim

omit live in
theorem Ensues.of_broken (ensues : Ensues audience solo last)
    (still : last.session.projection.disposed = false) :
    last.session.projection.broken = true ∧ last.session.journal = solo.session.journal ∧
      last.session.projection.layout = solo.session.projection.layout ∧
      last.session.projection.text = solo.session.projection.text := by
  induction ensues with
  | first => exact ⟨broken, rfl, rfl, rfl⟩
  | @run middle _ command ih =>
    have here : middle.session.projection.disposed = false := by
      by_contra disposed
      have next : Ensues audience middle (middle.run audience command).1 := .run .first command
      cases still.symm.trans (next.of_disposed (Bool.eq_true_of_not_eq_false disposed)).2
    obtain ⟨broken, journal, layout, text⟩ := ih here
    rcases run_of_closed (Projection.closed?_of_broken here broken) command with
      same | ⟨request, rfl, casual⟩
    · rw [same]
      exact ⟨broken, journal, layout, text⟩
    · obtain ⟨journal', broken', -, ranges⟩ := Session.request_of_casual casual
      obtain ⟨layout', text'⟩ := ranges still
      exact ⟨broken'.trans broken, journal'.trans journal, layout'.trans layout, text'.trans text⟩

end

/-- Faults come to light. With an alarm, the same happens as without it. If it goes off, as it does
when a projection in use breaks while a range change is announced to its listeners, the call is
answered with a fault. From then on, for as long as the projection is not disposed, it is as it was
and nobody is told anything, and the calls that go through it are answered with a fault too. -/
theorem faults_surface {text : Text} {options : Options} {memory : μ} {allowance : Nat}
    (reaches : Ensues audience (start text options memory allowance) solo) (command : Command) :
    let alarmed := solo.runAlarmed audience command
    (alarmed.1.plain = (solo.run audience command).1 ∧ alarmed.2 = (solo.run audience command).2) ∧
    (alarmed.1.session.memory.2 = true → ∃ fault, alarmed.2 = .error (.inconsistent fault)) ∧
    (solo.session.projection.broken = true → ∀ last, Ensues audience solo last →
      last.session.projection.disposed = false →
        last.session.journal = solo.session.journal ∧
        last.session.projection.layout = solo.session.projection.layout ∧
        last.session.projection.text = solo.session.projection.text ∧
        (command.Uses last.master → (last.run audience command).1.session = last.session ∧
          (last.run audience command).2 = .error (.inconsistent .unusable))) := by
  intro alarmed
  have nothing : (start text options memory allowance).session.projection.Foresees := ⟨nofun, nofun⟩
  refine ⟨plain_runAlarmed audience solo command,
    runAlarmed_surfaces (reaches.foresees nothing) command, fun broken last ensues live => ?_⟩
  obtain ⟨broken, journal, layout, text⟩ := ensues.of_broken broken live
  exact ⟨journal, layout, text, run_of_unusable live broken⟩

/-- When a change of some kind is announced for the first time, the listener confirms an edit that was
never made. The fragments are carried past the end of the master text. -/
def misleading (kind : ChangeKind) : Audience Bool := fun once delivery =>
  if once ∨ delivery.notification.phase = .after ∨ delivery.notification.change.kind ≠ kind then
    .rest once
  else .act (.confirm ⟨9, ⟨0, 0⟩, List.replicate 8 'x'⟩) fun _ _ => .rest true

def misled (kind : ChangeKind) (commands : List Command) : Solo Bool :=
  (.act (.request (.add ⟨2, 2⟩)) :: .act (.request .subscribe) :: commands).foldl
    (fun solo command => (solo.run (misleading kind) command).1)
    (start ['a', 'b', 'c', 'd'] {} false 1)

/-- The addition of a range is answered with a fault, and so is an edit of the master that is made
afterwards. -/
theorem faults_surface_misled :
    let add : Command := .act (.request (.add ⟨0, 1⟩))
    let edit : Command := .edit ⟨2, 1⟩ ['y']
    ((misled .projection []).runAlarmed (misleading .projection) add).1.session.memory.2 = true ∧
    (∃ fault, ((misled .projection []).runAlarmed (misleading .projection) add).2 =
      .error (.inconsistent fault)) ∧
    ((misled .projection [add]).run (misleading .projection) edit).2 =
      .error (.inconsistent .unusable) := by
  intro add edit
  have reaches : Ensues (misleading .projection) (start ['a', 'b', 'c', 'd'] {} false 1)
      (misled .projection []) := .run (.run .first _) _
  have rang : ((misled .projection []).runAlarmed (misleading .projection) add).1.session.memory.2 =
      true := by decide +kernel
  obtain ⟨-, surfaces, -⟩ := faults_surface reaches add
  obtain ⟨-, -, stays⟩ := faults_surface (.run reaches add) edit
  obtain ⟨-, -, -, unusable⟩ := stays (by decide +kernel) _ .first (by decide +kernel)
  have inside : Region.Inside ⟨2, 1⟩ (misled .projection [add]).master.length := by decide +kernel
  exact ⟨rang, surfaces rang, (unusable inside).2⟩

/-- A projection that works breaks while an edit of the master is announced, and the edit succeeds
nevertheless. -/
theorem unnoticed_of_misled :
    let before := misled .content []
    let after := before.run (misleading .content) (.edit ⟨2, 1⟩ ['y'])
    before.session.projection.closed? = none ∧ after.1.session.projection.disposed = false ∧
      after.1.session.projection.broken = true ∧ after.2 = .ok .done := by
  decide +kernel

end TextProjection.Solo
