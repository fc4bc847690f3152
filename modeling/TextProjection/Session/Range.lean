import TextProjection.Projection.Plan
import TextProjection.Session

/-! Range changes of a session.

A range change is binding once it was announced. Whatever changes the projection while
the announcement is being delivered first carries out the announced change, so each
announcement is followed by a report of the same change.
-/

set_option autoImplicit false

namespace TextProjection.Session

variable {μ : Type} (notify : Notifier μ)

def conclude (master : Master) (session : Session μ) : Outcome (Session μ) :=
  match session.projection.planned with
  | none => .done session
  | some planned =>
    (session.within fun projection => { projection with planned := none }.carryOut planned)
      |>.andThen fun session => .done (session.report notify master planned.change)

/-- Announce a range change, then carry it out unless a listener already had it done. -/
def undertake (master : Master) (session : Session μ) (planned : Planned) : Outcome (Session μ) :=
  let session := session.update fun projection => { projection with planned := some planned }
  let session := notify master .before planned.change session
  match session.projection.closed? with
  | some error =>
    .fail (session.update fun projection => { projection with planned := none }) error
  | none => conclude notify master session

def undertakePlan (master : Master) (session : Session μ) (plan : Except Error Planned) :
    Outcome (Session μ) :=
  match plan with
  | .ok planned => undertake notify master session planned
  | .error error => .fail session error

/-- Show one hidden part of a region after the other, at most `rounds` of them. What is
hidden is asked anew each time, because listeners may have changed it. -/
def fillGaps (master : Master) (region : Region) (edit : Option Edit) (limit : Nat) :
    Nat → Session μ → Outcome (Session μ)
  | 0, session => .fail session (.limitExceeded limit)
  | rounds + 1, session =>
    match session.projection.layout.firstHidden? region with
    | none => .done session
    | some gap =>
      undertakePlan notify master session (session.projection.planFill master gap edit)
        |>.andThen (fillGaps master region edit limit rounds)

/-- Show all of a region. Asking whether anything is still hidden takes a round too. -/
def fill (master : Master) (region : Region) (edit : Option Edit) (session : Session μ) :
    Outcome (Session μ) :=
  let limit := session.projection.options.bound.limit session.projection.layout.size
  fillGaps notify master region edit limit (limit + 1) session

def changeRanges (master : Master) (region : Region) (session : Session μ)
    (operation : Session μ → Outcome (Session μ)) : Outcome (Session μ) :=
  .guarded (session.projection.refuses?.or (master.outside? region)) session fun session =>
    breakOnFault ((conclude notify master session).andThen operation)

def add (master : Master) (region : Region) (session : Session μ) : Outcome (Session μ) :=
  changeRanges notify master region session (fill notify master region none)

def remove (master : Master) (region : Region) (session : Session μ) : Outcome (Session μ) :=
  changeRanges notify master region session fun session =>
    if region.isEmpty then .done session
    else undertakePlan notify master session (session.projection.planRemoval region)

def reset (master : Master) (region : Region) (session : Session μ) : Outcome (Session μ) :=
  changeRanges notify master region session fun session =>
    undertakePlan notify master session (session.projection.planReset master region)

end TextProjection.Session
