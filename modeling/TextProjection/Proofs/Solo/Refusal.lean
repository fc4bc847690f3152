import TextProjection.Proofs.Session.Placed
import TextProjection.Proofs.Solo.Silence

/-! Refused calls change nothing: neither the projection nor the master, and nobody is told anything.
This holds over any run, whatever is announced and confirmed in it.
-/

set_option autoImplicit false

namespace TextProjection

variable {μ : Type}

namespace Solo

/-- The fragments are in place up to some size unless a fault was found, and the master text reaches
no farther. -/
structure PlacedWithin (size : Nat) (solo : Solo μ) : Prop where
  within : solo.master.length ≤ size
  projection : solo.session.projection.PlacedOrBroken size False

variable {audience : Audience μ} {solo first : Solo μ} {size : Nat}

theorem start_placedWithin (text : Text) (options : Options) (memory : μ) (allowance : Nat) :
    (start text options memory allowance).PlacedWithin text.length :=
  ⟨Nat.le_refl _, rfl, .inr rfl, fun _ => Projection.placed_nil rfl rfl⟩

section
variable (requests : audience.Requests)

include requests

theorem run_placedWithin (placedWithin : solo.PlacedWithin size) (command : Command) :
    ∃ larger, (solo.run audience command).1.PlacedWithin larger := by
  have steadies := Session.publish_steadies requests
  obtain ⟨within, projection⟩ := placedWithin
  have spliced {region : Region} (text : Text) (inside : region.Inside solo.master.length) :
      (solo.master.text.splice region text).length ≤ size + text.length := by
    rw [Text.length_splice inside]
    change solo.master.length - region.length + text.length ≤ size + text.length
    omega
  have wider (text : Text) : solo.session.projection.PlacedOrBroken (size + text.length) False :=
    projection.mono (Nat.le_add_right _ _)
  cases command with
  | act performed =>
    cases performed with
    | request request =>
      exact ⟨size, within, Session.request_placedOrBroken steadies within projection request⟩
    | anticipate edit =>
      exact ⟨size, within, Session.anticipate_placedOrBroken steadies within projection⟩
    | confirm edit =>
      have farther : solo.master.length ≤ max size edit.region.stop + edit.text.length := by omega
      exact ⟨_, farther, Session.confirm_placedOrBroken steadies edit projection farther⟩
    | editCopy region text =>
      exact ⟨size + text.length, Nat.le_trans within (Nat.le_add_right _ _),
        (Session.editMaster_placedOrBroken steadies within region projection).2⟩
    | replaceCopy image text =>
      exact ⟨size + text.length, Nat.le_trans within (Nat.le_add_right _ _),
        (Session.replace_placedOrBroken steadies within projection).2⟩
  | edit region text =>
    obtain ⟨length, edited⟩ := Session.editMaster_placedOrBroken steadies within region projection
    exact ⟨size + text.length, length, edited⟩
  | replace image text =>
    obtain ⟨length, edited⟩ := Session.replace_placedOrBroken steadies within projection
    exact ⟨size + text.length, length, edited⟩
  | set text =>
    obtain ⟨length, edited⟩ := Session.replace_placedOrBroken steadies within projection
    exact ⟨size + text.length, length, edited⟩
  | prepare region text =>
    by_cases inside : region.Inside solo.master.length
    · simp only [run, runBy, Master.prepare_eq inside]
      exact ⟨size, within, projection⟩
    · simp only [run, runBy, Master.prepare_eq_error inside]
      exact ⟨size, within, projection⟩
  | commit edit =>
    by_cases inside : edit.region.Inside solo.master.length
    · simp only [run, runBy, Master.commit_eq inside]
      exact ⟨size + edit.text.length, spliced edit.text inside, wider edit.text⟩
    · simp only [run, runBy, Master.commit_eq_error inside]
      exact ⟨size, within, projection⟩
  | rawEdit region text =>
    by_cases inside : region.Inside solo.master.length
    · simp only [run, runBy, Master.replace_eq inside]
      exact ⟨size + text.length, spliced text inside, wider text⟩
    · simp only [run, runBy, Master.replace_eq_error inside]
      exact ⟨size, within, projection⟩

theorem Ensues.placedWithin (ensues : Ensues audience first solo)
    (placedWithin : first.PlacedWithin size) :
    ∃ larger, solo.PlacedWithin larger := by
  induction ensues with
  | first => exact ⟨size, placedWithin⟩
  | run _ command ih =>
    obtain ⟨reached, before⟩ := ih
    exact run_placedWithin requests before command

def Command.Fits (master : Master) (command : Command) : Prop :=
  ∀ edit, command = .act (.anticipate edit) → edit.region.Inside master.length

theorem run_of_refusal (placedWithin : solo.PlacedWithin size) {command : Command}
    (fitting : command.Fits solo.master) {error : Error}
    (replied : (solo.run audience command).2 = .error error)
    (refusal : error.isRefusal = true) : (solo.run audience command).1 = solo := by
  obtain ⟨within, projection⟩ := placedWithin
  have between := projection.between
  have maintains (other : Master) (same : other.text = solo.master.text) :
      (publish audience).Maintains other (Projection.PlacedSound size False)
        (Projection.PlacedIdle size False) := by
    apply (Session.publish_steadies requests).maintains
    rwa [Master.length, same]
  have edited {outcome : Outcome (Master × Session μ)}
      (intact : outcome.Intact (solo.master, solo.session))
      (replied : (outcome.map ofPair).reply.2 = .error error) :
      (outcome.map ofPair).reply.1 = solo :=
    intact.map ofPair error (Outcome.error_of_reply replied) refusal
  cases command with
  | act performed =>
    have same : (solo.session.act (publish audience) solo.master performed).1 = solo.session :=
      Session.act_intact maintains between
        (fun edit announces => fitting edit (congrArg Command.act announces)) replied refusal
    simp only [run, runBy, same]
  | edit region text =>
    apply edited _ replied
    exact Session.editMaster_intact maintains between.idle
      fun usable _ => between.usable usable
  | replace image text => exact edited (Session.replace_intact maintains between) replied
  | set text => exact edited (Session.replace_intact maintains between) replied
  | prepare region text =>
    cases prepared : solo.master.prepare region text <;> simp [run, runBy, prepared] at replied ⊢
  | commit edit =>
    cases committed : solo.master.commit edit <;> simp [run, runBy, committed] at replied ⊢
  | rawEdit region text =>
    cases replaced : solo.master.replace region text <;> simp [run, runBy, replaced] at replied ⊢

end

/-- A projection that was disposed before refuses commands, and that changes nothing either. -/
theorem run_of_disposed (disposed : solo.session.projection.disposed = true) {command : Command}
    (replied : (solo.run audience command).2 = .error .disposed) :
    (solo.run audience command).1 = solo := by
  have closed := Projection.closed?_of_disposed disposed
  cases command with
  | act performed =>
    have acted : (solo.session.act (publish audience) solo.master performed).1 = solo.session ∨
        ∃ request, performed = .request request ∧ ¬ request.Ranges :=
      Session.act_of_closed closed performed
    rcases acted with same | ⟨request, rfl, casual⟩
    · simp only [run, runBy, same]
    · -- Requests for settings and listeners are always granted.
      cases request <;> first | exact absurd trivial casual | cases replied
  | edit region text =>
    have failed := Outcome.error_of_reply replied
    by_cases inside : region.Inside solo.master.length
    · have granted : (solo.session.editMaster (publish audience) solo.master region text).error =
          none := Session.error_editMaster_of_disposed closed disposed inside
      cases granted.symm.trans failed
    · simp only [run, runBy, Session.editMaster, Master.prepare_eq_error inside]
      rfl
  | replace image text =>
    simp only [run, runBy, Session.replace_of_closed closed]
    rfl
  | set text =>
    simp only [run, runBy, Session.set_of_closed closed]
    rfl
  | prepare region text =>
    cases prepared : solo.master.prepare region text <;> simp [run, runBy, prepared] at replied ⊢
  | commit edit =>
    cases committed : solo.master.commit edit <;> simp [run, runBy, committed] at replied ⊢
  | rawEdit region text =>
    cases replaced : solo.master.replace region text <;> simp [run, runBy, replaced] at replied ⊢

/-- The command was refused: for its arguments, for its moment, or because the projection had been
disposed before. -/
def Refuses (solo : Solo μ) (error : Error) : Prop :=
  error.isRefusal = true ∨ error = .disposed ∧ solo.session.projection.disposed = true

theorem same_of_refused (requests : audience.Requests) {text : Text} {options : Options} {memory : μ}
    {allowance : Nat} (ensues : Ensues audience (start text options memory allowance) solo)
    {command : Command} (fitting : command.Fits solo.master) {error : Error}
    (replied : (solo.run audience command).2 = .error error)
    (refused : solo.Refuses error) : (solo.run audience command).1 = solo := by
  rcases refused with refusal | ⟨rfl, disposed⟩
  · obtain ⟨size, placedWithin⟩ := ensues.placedWithin requests
      (start_placedWithin text options memory allowance)
    exact run_of_refusal requests placedWithin fitting replied refusal
  · exact run_of_disposed disposed replied

end Solo

end TextProjection
