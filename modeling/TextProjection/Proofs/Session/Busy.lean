import TextProjection.Proofs.Session.Coupling
import TextProjection.Proofs.Session.Passive

/-! While notifications are being delivered, whatever is done with a session only puts more of them
into the queue. Nobody is told of anything before the one who is told now has reacted.
-/

set_option autoImplicit false

namespace TextProjection

variable {μ : Type}

namespace Session

structure Busy (told : List (Nat × Notification)) (session : Session μ) : Prop where
  dispatching : session.projection.listeners.dispatching = true
  notices : session.notices = told

variable {audience : Audience μ} {master : Master} {told : List (Nat × Notification)}
  {session : Session μ}

/-- Publishing leaves everything to the dispatch that is going on. -/
theorem publish_of_busy (audience : Audience μ) (master : Master) (phase : Phase) (change : Change)
    (busy : session.Busy told) :
    publish audience master phase change session = enqueue master phase change session ∧
      (enqueue master phase change session).Busy told := by
  constructor
  · simp [publish, busy.dispatching]
  · unfold enqueue
    split
    · exact busy
    · exact ⟨busy.dispatching, busy.notices⟩

theorem coupling_busy (audience : Audience μ) (told : List (Nat × Notification)) :
    Coupling (publish audience) enqueue fun left right => left = right ∧ left.Busy told :=
  .of_same
    (fun _ _ busy continues =>
      ⟨(congrArg Listeners.dispatching continues.listeners).trans busy.dispatching, busy.notices⟩)
    (fun _ _ busy => ⟨busy.dispatching, busy.notices⟩)
    (fun session change busy =>
      ⟨busy.dispatching, (notices_record_applied session change).trans busy.notices⟩)
    (fun master phase change _ busy => publish_of_busy audience master phase change busy)

theorem request_waits {request : Request} (casual : ¬ request.Ranges) (busy : session.Busy told) :
    session.request (publish audience) master request = session.request enqueue master request ∧
      (session.request enqueue master request).1.Busy told := by
  cases request with
  | add _ | remove _ | reset _ => exact absurd trivial casual
  | setAutoExpand on => exact ⟨rfl, busy.dispatching, busy.notices⟩
  | subscribe => exact ⟨rfl, busy.dispatching, busy.notices⟩
  | unsubscribe listener => exact ⟨rfl, busy.dispatching, busy.notices⟩
  | dispose =>
    refine ⟨rfl, ?_, busy.notices⟩
    change session.projection.dispose.listeners.dispatching = true
    unfold Projection.dispose
    split <;> exact busy.dispatching

/-- While notifications are being delivered, an act comes to the same whether or not it would tell the
listeners at once: they are not told of anything yet. -/
theorem act_waits (act : Act) (busy : session.Busy told) :
    session.act (publish audience) master act = session.act enqueue master act ∧
      (session.act enqueue master act).1.Busy told := by
  have others (request : Request) (_ : act = .request request) (casual : ¬ request.Ranges) :
      ((session.request (publish audience) master request).1 =
          (session.request enqueue master request).1 ∧
        (session.request (publish audience) master request).1.Busy told) ∧
      (session.request (publish audience) master request).2 =
        (session.request enqueue master request).2 := by
    obtain ⟨same, waiting⟩ := request_waits casual busy
    rw [same]
    exact ⟨⟨rfl, waiting⟩, rfl⟩
  obtain ⟨⟨same, waiting⟩, reply⟩ :=
    act_both (coupling_busy audience told) master ⟨rfl, busy⟩ others
  exact ⟨Prod.ext same reply, same ▸ waiting⟩

theorem perform_waits (reaction : Reaction μ) (busy : session.Busy told) :
    performWith (publish audience) master reaction session = perform master reaction session ∧
      (perform master reaction session).Busy told := by
  induction reaction generalizing session with
  | rest memory => exact ⟨rfl, busy.dispatching, busy.notices⟩
  | act act next ih =>
    cases left : session.allowance with
    | zero =>
      simp only [performWith, perform_act, left, true_and]
      exact busy
    | succ allowance =>
      obtain ⟨same, dispatching, notices⟩ : session.act (publish audience) master act = _ ∧ _ :=
        act_waits act busy
      simp only [performWith, perform_act, left, same] at dispatching notices ⊢
      exact ih _ _ ⟨dispatching, notices⟩

end Session

end TextProjection
