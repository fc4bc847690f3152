import TextProjection.Session.Edit

/-! Requests and acts on a session, and the delivery of what they bring about.

Notifications are delivered one at a time and each to all listeners before the next. One
that comes up while listeners react is queued, so no listener is called while another one
is reacting and all of them learn of the changes in the same order.
-/

set_option autoImplicit false

namespace TextProjection.Session

variable {μ : Type}

section
variable (notify : Notifier μ)

def request (master : Master) (session : Session μ) : Request → Session μ × Reply
  | .add region => (add notify master region session).reply
  | .remove region => (remove notify master region session).reply
  | .reset region => (reset notify master region session).reply
  | .setAutoExpand on => (session.update (·.setAutoExpand on), .ok .done)
  | .subscribe =>
    let (id, projection) := session.projection.subscribe
    ({ session with projection }, .ok (.listener id))
  | .unsubscribe listener =>
    let (found, projection) := session.projection.unsubscribe listener
    ({ session with projection }, .ok (.unsubscribed found))
  | .dispose => (session.update Projection.dispose, .ok .done)

def act (master : Master) (session : Session μ) : Act → Session μ × Reply
  | .request request => session.request notify master request
  | .anticipate edit => (anticipate notify master edit session).reply
  | .confirm edit => (confirm notify master edit session).reply
  | .editCopy region text => ((editMaster notify master region text session).map (·.2)).reply
  | .replaceCopy image text => ((replace notify master image text session).map (·.2)).reply

end

def enqueue : Notifier μ := fun _ phase change session =>
  if session.projection.listeners.ids.isEmpty then session
  else session.update fun projection => { projection with
    listeners.queue := projection.listeners.queue ++ [⟨phase, change⟩] }

/-- Perform a listener's reaction, with some way to tell of what the acts bring about. -/
def performWith (notify : Notifier μ) (master : Master) : Reaction μ → Session μ → Session μ
  | .rest memory, session => { session with memory }
  | .act act next, session =>
    match session.allowance with
    | 0 => session
    | allowance + 1 =>
      let (session, reply) := session.act notify master act
      performWith notify master (next reply session.projection) { session with allowance }

def perform (master : Master) : Reaction μ → Session μ → Session μ := performWith enqueue master

theorem perform_act (master : Master) (act : Act) (next : Reply → Projection → Reaction μ)
    (session : Session μ) :
    perform master (.act act next) session =
      match session.allowance with
      | 0 => session
      | allowance + 1 =>
        let (session, reply) := session.act enqueue master act
        perform master (next reply session.projection) { session with allowance } := by
  rw [perform, performWith]

variable (audience : Audience μ) (master : Master)

def deliverTo (notification : Notification) (session : Session μ) (listener : Nat) :
    Session μ :=
  if listener ∈ session.projection.listeners.ids then
    let delivery : Delivery := ⟨listener, notification, master, session.projection⟩
    perform master (audience session.memory delivery) (session.record (.delivered delivery))
  else session

def deliver (notification : Notification) (session : Session μ) : Session μ :=
  session.projection.listeners.ids.foldl (deliverTo audience master notification) session

def deliverNext (session : Session μ) : Session μ :=
  match session.projection.listeners.queue with
  | [] => session
  | notification :: rest =>
    deliver audience master notification
      (session.update fun projection => { projection with listeners.queue := rest })

def deliverMany : Nat → Session μ → Session μ
  | 0, session => session
  | count + 1, session => deliverMany count (deliverNext audience master session)

/-- Deliver in rounds. A round delivers as many notifications as are waiting when it
begins, so there is another one only if a listener acted. -/
def drain : Nat → Session μ → Session μ
  | 0, session => session
  | rounds + 1, session =>
    if session.projection.listeners.queue.isEmpty then session
    else
      drain rounds
        (deliverMany audience master session.projection.listeners.queue.length session)

def setDispatching (dispatching : Bool) (session : Session μ) : Session μ :=
  session.update fun projection => { projection with listeners.dispatching := dispatching }

end TextProjection.Session

namespace TextProjection

/-- Tell the listeners now, with whatever that brings about, unless this comes up while
they are being told of something else. -/
def publish {μ : Type} (audience : Audience μ) : Notifier μ := fun master phase change session =>
  let waiting := Session.enqueue master phase change session
  if session.projection.listeners.ids.isEmpty ∨ session.projection.listeners.dispatching then
    waiting
  else
    -- Each round but the first costs at least one act.
    (waiting.setDispatching true).drain audience master (session.allowance + 1)
      |>.setDispatching false

end TextProjection
