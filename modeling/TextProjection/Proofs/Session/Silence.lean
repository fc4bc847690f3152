import TextProjection.Proofs.Session.Coupling
import TextProjection.Session.Dispatch

/-! Who is still called when the projection is disposed while an operation goes on. All that were
subscribed are forgotten then, so nobody is, unless a listener subscribes somebody afterwards.
-/

set_option autoImplicit false

namespace TextProjection

variable {μ : Type}

structure Audience.Upholds (audience : Audience μ) (holds : Session μ → Prop) : Prop where
  queues : ∀ session queue dispatching, holds session → holds (session.update fun projection =>
    { projection with listeners := { projection.listeners with queue, dispatching } })
  hands : ∀ session listener notification master, holds session →
    listener ∈ session.projection.listeners.ids →
    holds (session.record (.delivered ⟨listener, notification, master, session.projection⟩))
  reacts : ∀ session delivery, holds session → delivery.projection = session.projection →
    holds (session.perform delivery.master (audience session.memory delivery))

namespace Session

theorem enqueue_upholds {holds : Session μ → Prop}
    (queues : ∀ session queue dispatching, holds session → holds (session.update fun projection =>
      { projection with listeners := { projection.listeners with queue, dispatching } }))
    (master : Master) (phase : Phase) (change : Change) {session : Session μ} (here : holds session) :
    holds (enqueue master phase change session) := by
  unfold enqueue
  split
  · exact here
  · exact queues session _ session.projection.listeners.dispatching here

section
variable {audience : Audience μ} {holds : Session μ → Prop} (upholds : audience.Upholds holds)
  (master : Master) {session : Session μ}

include upholds

theorem deliverTo_upholds (notification : Notification) (listener : Nat) (here : holds session) :
    holds (deliverTo audience master notification session listener) := by
  unfold deliverTo
  split
  · next subscribed =>
    exact upholds.reacts _ ⟨listener, notification, master, session.projection⟩
      (upholds.hands session listener notification master here subscribed) rfl
  · exact here

theorem deliver_upholds (notification : Notification) (here : holds session) :
    holds (deliver audience master notification session) := by
  unfold deliver
  exact List.foldlRecOn (motive := holds) _ _ here fun _ here listener _ =>
    deliverTo_upholds upholds master notification listener here

theorem deliverMany_upholds (count : Nat) (here : holds session) :
    holds (deliverMany audience master count session) := by
  induction count generalizing session with
  | zero => exact here
  | succ count ih =>
    apply ih
    unfold deliverNext
    split
    · exact here
    · exact deliver_upholds upholds master _ (upholds.queues session _
        session.projection.listeners.dispatching here)

theorem drain_upholds (rounds : Nat) (here : holds session) :
    holds (drain audience master rounds session) := by
  induction rounds generalizing session with
  | zero => exact here
  | succ rounds ih =>
    unfold drain
    split
    · exact here
    · exact ih (deliverMany_upholds upholds master _ here)

theorem publish_upholds (phase : Phase) (change : Change) (here : holds session) :
    holds (publish audience master phase change session) := by
  have waiting := enqueue_upholds upholds.queues master phase change here
  unfold publish
  split
  · exact waiting
  · exact upholds.queues _ _ false (drain_upholds upholds master _ (upholds.queues _ _ true waiting))

end

/-! Who may be called -/

/-- Once the projection is disposed, those only are told who are allowed to be. Where subscriptions are
free, those who are still to come are allowed. -/
structure Discreet (free : Prop) (allowed : Nat → Prop) (session : Session μ) : Prop where
  told : ∀ delivery, .delivered delivery ∈ session.journal →
    delivery.projection.disposed = true →
      session.projection.disposed = true ∧ allowed delivery.listener
  coming : free → ∀ listener, session.projection.listeners.nextId ≤ listener → allowed listener
  given : ∀ listener ∈ session.projection.listeners.ids,
    listener < session.projection.listeners.nextId

/-- Nobody else is subscribed to a projection that is disposed, either. -/
structure Hushed (free : Prop) (allowed : Nat → Prop) (session : Session μ) : Prop
    extends session.Discreet free allowed where
  left : session.projection.disposed = true →
    ∀ listener ∈ session.projection.listeners.ids, allowed listener

variable {free : Prop} {allowed : Nat → Prop} {session : Session μ}

theorem Hushed.congr {after : Session μ} (hushed : session.Hushed free allowed)
    (journal : after.journal = session.journal)
    (disposed : after.projection.disposed = session.projection.disposed)
    (ids : after.projection.listeners.ids = session.projection.listeners.ids)
    (nextId : after.projection.listeners.nextId = session.projection.listeners.nextId) :
    after.Hushed free allowed := by
  obtain ⟨⟨told, coming, given⟩, left⟩ := hushed
  refine ⟨⟨?_, ?_, ?_⟩, ?_⟩
  · rwa [journal, disposed]
  · rwa [nextId]
  · rwa [ids, nextId]
  · rwa [disposed, ids]

theorem Hushed.applied (hushed : session.Hushed free allowed) (change : Change) :
    (session.record (.applied change)).Hushed free allowed := by
  refine ⟨⟨fun delivery member => ?_, hushed.coming, hushed.given⟩, hushed.left⟩
  rcases List.mem_append.mp member with member | member
  · exact hushed.told delivery member
  · cases List.mem_singleton.mp member

theorem Hushed.delivered (hushed : session.Hushed free allowed) {listener : Nat}
    (subscribed : listener ∈ session.projection.listeners.ids) (notification : Notification)
    (master : Master) :
    (session.record (.delivered ⟨listener, notification, master, session.projection⟩)).Hushed free
      allowed := by
  refine ⟨⟨fun delivery member disposed => ?_, hushed.coming, hushed.given⟩, hushed.left⟩
  rcases List.mem_append.mp member with member | member
  · exact hushed.told delivery member disposed
  · cases List.mem_singleton.mp member
    exact ⟨disposed, hushed.left disposed listener subscribed⟩

section
variable (notify : Notifier μ) (master : Master) {request : Request} (casual : ¬ request.Ranges)

include casual

theorem Discreet.requested (discreet : session.Discreet free allowed) :
    (session.request notify master request).1.Discreet free allowed := by
  cases request with
  | add region | remove region | reset region => exact absurd trivial casual
  | setAutoExpand on => exact ⟨discreet.told, discreet.coming, discreet.given⟩
  | subscribe =>
    refine ⟨discreet.told, fun all listener next => ?_, fun listener member => ?_⟩
    · exact discreet.coming all listener (Nat.le_of_succ_le next)
    · rcases List.mem_append.mp member with member | member
      · exact Nat.lt_succ_of_lt (discreet.given listener member)
      · rw [List.mem_singleton.mp member]
        exact Nat.lt_succ_self _
  | unsubscribe listener =>
    exact ⟨discreet.told, discreet.coming, fun other member =>
      discreet.given other (List.mem_of_mem_filter member)⟩
  | dispose =>
    change (session.update Projection.dispose).Discreet free allowed
    unfold update Projection.dispose
    split
    · exact discreet
    · exact ⟨fun delivery member disposed => ⟨rfl, (discreet.told delivery member disposed).2⟩,
        discreet.coming, fun _ member => (nomatch member)⟩

theorem Hushed.requested (hushed : session.Hushed free allowed)
    (refrains : session.projection.disposed = true → request = .subscribe → free) :
    (session.request notify master request).1.Hushed free allowed := by
  refine ⟨hushed.toDiscreet.requested notify master casual, fun disposed listener member => ?_⟩
  cases request with
  | add region | remove region | reset region => exact absurd trivial casual
  | setAutoExpand on => exact hushed.left disposed listener member
  | subscribe =>
    rcases List.mem_append.mp member with member | member
    · exact hushed.left disposed listener member
    · rw [List.mem_singleton.mp member]
      exact hushed.coming (refrains disposed rfl) _ (Nat.le_refl _)
  | unsubscribe other => exact hushed.left disposed listener (List.mem_of_mem_filter member)
  | dispose =>
    change listener ∈ session.projection.dispose.listeners.ids at member
    unfold Projection.dispose at member
    split at member
    · next already => exact hushed.left already listener member
    · cases member

end

end Session

/-- Nobody is subscribed to a projection that is already disposed in the course of the reaction, unless
subscriptions are free. -/
inductive Reaction.Refrains (free : Prop) : Bool → Reaction μ → Prop
  | rest (disposed : Bool) (memory : μ) : Refrains free disposed (.rest memory)
  | act {disposed : Bool} {act : Act} {next : Reply → Projection → Reaction μ}
      (here : disposed = true → act = .request .subscribe → free)
      (follow : ∀ reply projection, (next reply projection).Refrains free projection.disposed) :
      Refrains free disposed (.act act next)

def Audience.Refrains (free : Prop) (audience : Audience μ) : Prop :=
  ∀ memory delivery, (audience memory delivery).Refrains free delivery.projection.disposed

theorem Audience.refrains_of_free {free : Prop} (all : free) (audience : Audience μ) :
    audience.Refrains free := by
  intro memory delivery
  generalize delivery.projection.disposed = disposed
  generalize audience memory delivery = reaction
  induction reaction generalizing disposed with
  | rest memory => exact .rest disposed memory
  | act act next ih => exact .act (fun _ _ => all) fun reply projection => ih reply projection _

namespace Session

variable {free : Prop} {allowed : Nat → Prop} {session : Session μ} {audience : Audience μ}

theorem coupling_hushed {notify : Notifier μ}
    (tell : ∀ master phase change (session : Session μ), session.Hushed free allowed →
      (notify master phase change session).Hushed free allowed) :
    Coupling notify notify fun left right => left = right ∧ left.Hushed free allowed :=
  .of_same
    (fun _ _ hushed continues => hushed.congr rfl continues.disposed
      (congrArg Listeners.ids continues.listeners) (congrArg Listeners.nextId continues.listeners))
    (fun _ _ hushed => hushed.congr rfl rfl rfl rfl)
    (fun _ change hushed => hushed.applied change)
    (fun master phase change session hushed => ⟨rfl, tell master phase change session hushed⟩)

theorem act_hushed {notify : Notifier μ}
    (tell : ∀ master phase change (session : Session μ), session.Hushed free allowed →
      (notify master phase change session).Hushed free allowed)
    (master : Master) (hushed : session.Hushed free allowed) {act : Act}
    (refrains : session.projection.disposed = true → act = .request .subscribe → free) :
    (session.act notify master act).1.Hushed free allowed := by
  refine (act_both (coupling_hushed tell) master ⟨rfl, hushed⟩ ?_).1.2
  rintro request rfl casual
  exact ⟨⟨rfl, hushed.requested notify master casual fun disposed same =>
    refrains disposed (congrArg Act.request same)⟩, rfl⟩

theorem enqueue_hushed (master : Master) (phase : Phase) (change : Change)
    (hushed : session.Hushed free allowed) :
    (enqueue master phase change session).Hushed free allowed :=
  enqueue_upholds (fun _ _ _ hushed => hushed.congr rfl rfl rfl rfl) master phase change hushed

theorem perform_hushed (master : Master) {reaction : Reaction μ}
    (refrains : reaction.Refrains free session.projection.disposed)
    (hushed : session.Hushed free allowed) :
    (perform master reaction session).Hushed free allowed := by
  generalize before : session.projection.disposed = disposed at refrains
  induction refrains generalizing session with
  | rest disposed memory => exact hushed.congr rfl rfl rfl rfl
  | act here follow ih =>
    rw [perform_act]
    split
    · exact hushed
    · have acted := act_hushed (fun master phase change _ => enqueue_hushed master phase change) master
        hushed fun disposed => here (before ▸ disposed)
      exact ih _ _ (acted.congr rfl rfl rfl rfl) rfl

/-- Telling listeners that refrain keeps a projection hushed. -/
theorem publish_hushed (refrains : audience.Refrains free) (master : Master) (phase : Phase)
    (change : Change) (hushed : session.Hushed free allowed) :
    (publish audience master phase change session).Hushed free allowed := by
  refine publish_upholds ⟨fun _ _ _ hushed => hushed.congr rfl rfl rfl rfl,
    fun _ _ notification master hushed subscribed => hushed.delivered subscribed notification master,
    fun session delivery hushed same => ?_⟩ master phase change hushed
  refine perform_hushed delivery.master ?_ hushed
  rw [← same]
  exact refrains session.memory delivery

end Session

end TextProjection
