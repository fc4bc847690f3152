import TextProjection.Session

/-! What operations lead to: one predicate for the states that successes leave, another one
for those that failures leave. No failure is a fault.
-/

set_option autoImplicit false

namespace TextProjection

/-- A success leaves a good state; a failure leaves a fair one and is not a fault. -/
structure Outcome.Ends {σ : Type} (outcome : Outcome σ) (good fair : σ → Prop) : Prop where
  good : outcome.error = none → good outcome.state
  fair : ∀ error, outcome.error = some error → error.isFault = false ∧ fair outcome.state

namespace Outcome.Ends

variable {σ τ : Type} {outcome : Outcome σ} {good fair : σ → Prop}

theorem done {state : σ} (holds : good state) : (Outcome.done state).Ends good fair :=
  ⟨fun _ => holds, nofun⟩

theorem fail {state : σ} {error : Error} (refusal : error.isFault = false) (holds : fair state) :
    (Outcome.fail state error).Ends good fair :=
  ⟨nofun, fun _ same => Option.some.inj same ▸ ⟨refusal, holds⟩⟩

theorem mono {good' fair' : σ → Prop} (ends : outcome.Ends good fair)
    (better : ∀ state, good state → good' state) (fairer : ∀ state, fair state → fair' state) :
    outcome.Ends good' fair' :=
  ⟨fun success => better _ (ends.good success),
    fun error failure => ⟨(ends.fair error failure).1, fairer _ (ends.fair error failure).2⟩⟩

theorem andThen {middle : σ → Prop} {next : σ → Outcome σ} (first : outcome.Ends middle fair)
    (second : ∀ state, middle state → (next state).Ends good fair) :
    (outcome.andThen next).Ends good fair := by
  obtain ⟨state, error⟩ := outcome
  cases error with
  | none => exact second state (first.good rfl)
  | some error =>
    obtain ⟨refusal, holds⟩ := first.fair error rfl
    exact fail refusal holds

theorem map {good' fair' : τ → Prop} {whole : σ → τ} (ends : outcome.Ends good fair)
    (better : ∀ state, good state → good' (whole state))
    (fairer : ∀ state, fair state → fair' (whole state)) :
    (outcome.map whole).Ends good' fair' :=
  ⟨fun success => better _ (ends.good success),
    fun error failure => ⟨(ends.fair error failure).1, fairer _ (ends.fair error failure).2⟩⟩

theorem state {both : σ → Prop} (ends : outcome.Ends both both) : both outcome.state := by
  cases failed : outcome.error with
  | none => exact ends.good failed
  | some error => exact (ends.fair error failed).2

theorem success (ends : outcome.Ends good fun _ => False) :
    outcome.error = none ∧ good outcome.state := by
  cases failed : outcome.error with
  | none => exact ⟨rfl, ends.good failed⟩
  | some error => exact (ends.fair error failed).2.elim

theorem guarded {objection : Option Error} {state : σ} {next : σ → Outcome σ}
    (refusal : ∀ error, objection = some error → error.isFault = false ∧ fair state)
    (allowed : objection = none → (next state).Ends good fair) :
    (Outcome.guarded objection state next).Ends good fair := by
  cases objection with
  | none => exact allowed rfl
  | some error => exact fail (refusal error rfl).1 (refusal error rfl).2

theorem reply (ends : outcome.Ends good fair) {error : Error}
    (replied : outcome.reply.2 = .error error) : error.isFault = false := by
  cases failed : outcome.error with
  | none => simp [Outcome.reply, failed] at replied
  | some found =>
    obtain rfl : found = error := by simpa [Outcome.reply, failed] using replied
    exact (ends.fair found failed).1

theorem breakOnFault_eq {μ : Type} {outcome : Outcome (Session μ)} {good fair : Session μ → Prop}
    (ends : outcome.Ends good fair) : Session.breakOnFault outcome = outcome := by
  unfold Session.breakOnFault
  rw [if_neg]
  intro faulty
  obtain ⟨error, failed, fault⟩ := (Option.any_eq_true _ _).mp faulty
  rw [(ends.fair error failed).1] at fault
  cases fault

theorem breakOnFault {μ : Type} {outcome : Outcome (Session μ)} {good fair : Session μ → Prop}
    (ends : outcome.Ends good fair) : (Session.breakOnFault outcome).Ends good fair := by
  rw [ends.breakOnFault_eq]
  exact ends

end Outcome.Ends

end TextProjection
