import TextProjection.Listener

/-! A session is a projection in use: the projection, what its listeners remember, and a
journal of what happened to it.
-/

set_option autoImplicit false

namespace TextProjection

inductive Entry where
  | applied (change : Change)
  | delivered (delivery : Delivery)
  deriving DecidableEq, Repr

structure Session (μ : Type) where
  projection : Projection
  memory : μ
  journal : List Entry := []
  /-- How many acts its listeners may still perform. A listener that has none left stops
  reacting at its next act. -/
  allowance : Nat
  /-- A sum was formed that is not a word. The program has stopped there. -/
  overflowed : Bool := false
  deriving DecidableEq

abbrev Notifier (μ : Type) := Master → Phase → Change → Session μ → Session μ

namespace Session

variable {μ : Type}

def start (options : Options) (memory : μ) (allowance : Nat) : Session μ where
  projection := { options }
  memory := memory
  allowance := allowance

def update (session : Session μ) (change : Projection → Projection) : Session μ :=
  { session with projection := change session.projection }

def within (session : Session μ) (operation : Projection → Outcome Projection) :
    Outcome (Session μ) :=
  (operation session.projection).map fun projection => { session with projection }

def record (session : Session μ) (entry : Entry) : Session μ :=
  { session with journal := session.journal ++ [entry] }

/-- Note whether a sum was not a word. -/
def note (session : Session μ) (overflowed : Bool) : Session μ :=
  { session with overflowed := session.overflowed || overflowed }

theorem note_false (session : Session μ) : session.note false = session := by
  rw [note, Bool.or_false]

def breakOnFault (outcome : Outcome (Session μ)) : Outcome (Session μ) :=
  if outcome.error.any Error.isFault then
    ⟨outcome.state.update fun projection => { projection with broken := true }, outcome.error⟩
  else outcome

def report (notify : Notifier μ) (master : Master) (change : Change) (session : Session μ) :
    Session μ :=
  notify master .after change (session.record (.applied change))

end Session

end TextProjection
