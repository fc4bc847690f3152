import TextProjection.Projection

/-! What listeners are handed, and what they may do with it.

A listener reacts to a delivery by a finite tree of acts on the projection, each chosen
by the answers to the ones before, and leaves a memory behind. All listeners of a
projection share one memory, and the audience says how each of them reacts.
-/

set_option autoImplicit false

namespace TextProjection

inductive Request where
  | add (region : Region)
  | remove (region : Region)
  | reset (region : Region)
  | setAutoExpand (on : Bool)
  | subscribe
  | unsubscribe (listener : Nat)
  | dispose
  deriving DecidableEq, Repr

/-- What can be done with a projection by someone who has its master at hand to read. -/
inductive Act where
  | request (request : Request)
  | anticipate (edit : Edit)
  | confirm (edit : Edit)
  /-- Replace text of a copy of the master that is thrown away afterwards. -/
  | editCopy (region : Region) (text : Text)
  /-- Replace text of the projection, with such a copy for its master. -/
  | replaceCopy (image : Region) (text : Text)
  deriving DecidableEq, Repr

inductive Answer where
  | done
  | listener (id : Nat)
  | unsubscribed (found : Bool)
  | prepared (edit : Edit)
  | projection (id : Nat)
  deriving DecidableEq, Repr

abbrev Reply := Except Error Answer

def Outcome.reply {σ : Type} (outcome : Outcome σ) : σ × Reply :=
  (outcome.state, outcome.error.elim (.ok .done) .error)

/-- A notification on its way to one listener, with the projection and the master as
they are when it arrives. -/
structure Delivery where
  listener : Nat
  notification : Notification
  master : Master
  projection : Projection
  deriving DecidableEq, Repr

variable {μ : Type}

inductive Reaction (μ : Type) where
  | rest (memory : μ)
  /-- Act; what follows depends on the reply and on the projection afterwards. -/
  | act (act : Act) (next : Reply → Projection → Reaction μ)

abbrev Audience (μ : Type) := μ → Delivery → Reaction μ

end TextProjection
