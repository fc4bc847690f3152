import TextProjection.Proofs.Session.Sound
import TextProjection.Session.Dispatch

/-! Delivery keeps whatever the requests of listeners keep, since all that listeners do while
they are told is queued.
-/

set_option autoImplicit false

namespace TextProjection

variable {μ : Type}

inductive Reaction.Requests : Reaction μ → Prop
  | rest (memory : μ) : Requests (.rest memory)
  | act (request : Request) (next : Reply → Projection → Reaction μ)
      (follow : ∀ reply projection, (next reply projection).Requests) :
      Requests (.act (.request request) next)

def Audience.Requests (audience : Audience μ) : Prop :=
  ∀ memory delivery, (audience memory delivery).Requests

/-- The listeners make one request when one of them is told of something for the first time. -/
def Audience.once (request : Request) : Audience Bool := fun told _ =>
  if told then .rest true else .act (.request request) fun _ _ => .rest true

theorem Audience.once_requests (request : Request) : (once request).Requests := by
  intro told _
  cases told with
  | true => exact .rest true
  | false => exact .act request _ fun _ _ => .rest true

namespace Session

variable {property : Projection → Prop} {master : Master}

theorem enqueue_keeps (free : ∀ projection listeners, property projection →
      property { projection with listeners := listeners }) :
    (enqueue : Notifier μ).Keeps master property := by
  intro phase change session holds
  unfold enqueue
  split
  · exact holds
  · exact free _ _ holds

theorem perform_keeps {audience : Audience μ} (requests : audience.Requests)
    (kept : ∀ (session : Session μ) (request : Request), property session.projection →
      property (session.request enqueue master request).1.projection)
    (delivery : Delivery) {session : Session μ} (holds : property session.projection) :
    property (perform master (audience session.memory delivery) session).projection := by
  generalize reacts : audience session.memory delivery = reaction
  have requests : reaction.Requests := reacts ▸ requests session.memory delivery
  clear reacts
  induction requests generalizing session with
  | rest memory => exact holds
  | act request next _ ih =>
    rw [perform_act]
    split
    · exact holds
    · exact ih _ _ (kept session request holds)

section
variable {audience : Audience μ}
  (free : ∀ projection listeners, property projection →
    property { projection with listeners := listeners })
  (reacts : ∀ (session : Session μ) (delivery : Delivery), delivery.master = master →
    delivery.projection = session.projection → property session.projection →
    property (perform master (audience session.memory delivery) session).projection)

include reacts in
theorem deliver_keeps (notification : Notification) {session : Session μ}
    (holds : property session.projection) :
    property (deliver audience master notification session).projection := by
  unfold deliver
  -- The listeners are told one after the other, each in the state that the last one left.
  refine List.foldlRecOn (motive := fun session : Session μ => property session.projection) _ _ holds
    fun session holds listener _ => ?_
  unfold deliverTo
  split
  · exact reacts (session.record _) _ rfl rfl holds
  · exact holds

include free reacts in
theorem deliverMany_keeps (count : Nat) {session : Session μ}
    (holds : property session.projection) :
    property (deliverMany audience master count session).projection := by
  induction count generalizing session with
  | zero => exact holds
  | succ count ih =>
    apply ih
    unfold deliverNext
    split
    · exact holds
    · exact deliver_keeps reacts _ (free _ _ holds)

include free reacts in
theorem drain_keeps (rounds : Nat) {session : Session μ} (holds : property session.projection) :
    property (drain audience master rounds session).projection := by
  induction rounds generalizing session with
  | zero => exact holds
  | succ rounds ih =>
    unfold drain
    split
    · exact holds
    · exact ih (deliverMany_keeps free reacts _ holds)

include free reacts in
theorem publish_keeps : (publish audience).Keeps master property := by
  intro phase change session holds
  have waiting : property (enqueue master phase change session).projection :=
    enqueue_keeps free phase change session holds
  unfold publish
  split
  · exact waiting
  · exact free _ _ <| drain_keeps free reacts _ (free _ _ waiting)

end

variable {audience : Audience μ}

theorem publish_keeps_requested (requests : audience.Requests)
    (free : ∀ projection listeners, property projection →
      property { projection with listeners := listeners })
    (kept : ∀ (session : Session μ) (request : Request), property session.projection →
      property (session.request enqueue master request).1.projection) :
    (publish audience).Keeps master property :=
  publish_keeps free fun _ delivery _ _ => perform_keeps requests kept delivery

section
variable {sound rest : Projection → Prop} (upkeep : Projection.Upkeep master sound rest)

include upkeep

theorem enqueue_maintains : (enqueue : Notifier μ).Maintains master sound rest where
  toUpkeep := upkeep
  keepsSound := enqueue_keeps upkeep.sound_casual.audience
  keepsRest := enqueue_keeps upkeep.rest_casual.audience

theorem publish_maintains (requests : audience.Requests) :
    (publish audience).Maintains master sound rest where
  toUpkeep := upkeep
  keepsSound := by
    apply publish_keeps_requested requests upkeep.sound_casual.audience
    intro session request holds
    exact (request_spec (enqueue_maintains upkeep) upkeep.sound_of_rest (fun _ sound => sound)
      upkeep.sound_casual holds request).1
  keepsRest := by
    apply publish_keeps_requested requests upkeep.rest_casual.audience
    intro session request holds
    exact (request_spec (enqueue_maintains upkeep) (fun _ rest => rest) upkeep.sound_of_rest
      upkeep.rest_casual holds request).1

end

end Session

end TextProjection
