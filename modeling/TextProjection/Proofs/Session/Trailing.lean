import TextProjection.Proofs.Session.Busy
import TextProjection.Proofs.Session.Moment
import TextProjection.Proofs.Session.Usual

/-! A listener that changes ranges while it is told of something, next to one who does so afterwards.
What the first one does is only queued, but otherwise the same comes of it, even if a range change
that was announced is still to be made in the first case and was made already in the second.
-/

set_option autoImplicit false

namespace TextProjection

variable {μ ν : Type}

def Reaction.making (finish : List Reply → Reaction μ) : List Request → Reaction μ
  | [] => finish []
  | request :: others => .act (.request request) fun reply _ =>
    making (fun replies => finish (reply :: replies)) others

namespace Session

/-- One session is telling its listeners of something, and the other one has told them all. They
differ only in that the notifications in the queue of the first one were delivered in the second one. -/
structure Trails (ids : List Nat) (told due : List (Nat × Notification)) (busy : Session μ)
    (still : Session ν) : Prop extends busy.Busy told where
  ids_eq : busy.projection.listeners.ids = ids
  same : still.projection =
    { busy.projection with listeners.queue := [], listeners.dispatching := false }
  delivered : still.notices =
    due ++ busy.projection.listeners.queue.flatMap fun notification => ids.map (·, notification)

/-- The range change that is announced in the first session was made in the second one. -/
structure Lags (master : Text) (planned : Planned) (ids : List Nat)
    (told due : List (Nat × Notification)) (busy : Session μ) (still : Session ν) : Prop
    extends busy.Busy told where
  ids_eq : busy.projection.listeners.ids = ids
  queue_eq : busy.projection.listeners.queue = []
  announced : busy.projection.planned = some planned
  made : ∃ layout, { busy.projection with planned := none }.Carries master planned layout ∧
    still.projection = { busy.projection with
      layout, text := layout.textUnder master, planned := none,
      listeners.queue := [], listeners.dispatching := false }
  delivered : still.notices = due ++ ids.map (·, ⟨.after, planned.change⟩)

/-- The first session comes to where the second one is, at the latest when the range change that
lags behind is made. -/
def Due (master : Text) (lag : Option Planned) (ids : List Nat)
    (told due : List (Nat × Notification)) (busy : Session μ) (still : Session ν) : Prop :=
  Trails ids told due busy still ∨
    ∃ planned, lag = some planned ∧ Lags master planned ids told due busy still

variable {notify : Notifier ν} {master : Master} {ids : List Nat}
  {told due : List (Nat × Notification)} {planned : Planned} {lag : Option Planned}
  {busy : Session μ} {still : Session ν}

theorem Trails.drained (trails : Trails ids told due busy still) :
    still.projection.listeners.Drained := by
  rw [trails.same]
  exact ⟨rfl, rfl⟩

theorem pairing_trails (informs : notify.Informs) :
    Pairing enqueue notify master (Trails (μ := μ) ids told due) where
  agrees busy still trails := ⟨_, trails.same⟩
  change busy still layout text planned broken trails := {
    dispatching := trails.dispatching
    notices := trails.notices
    ids_eq := trails.ids_eq
    same := by
      simp only [update, trails.same]
    delivered := trails.delivered }
  applied busy still change trails := {
    dispatching := trails.dispatching
    notices := (notices_record_applied busy change).trans trails.notices
    ids_eq := trails.ids_eq
    same := trails.same
    delivered := (notices_record_applied still change).trans trails.delivered }
  tell busy still phase change trails := by
    obtain ⟨same, notices⟩ := informs master phase change still trails.drained
    rw [enqueue_eq]
    exact {
      dispatching := trails.dispatching
      notices := trails.notices
      ids_eq := trails.ids_eq
      same := by rw [same, trails.same]; rfl
      delivered := by
        have subscribed : still.projection.listeners.ids = busy.projection.listeners.ids := by
          rw [trails.same]
        rw [notices, trails.delivered, subscribed, trails.ids_eq, List.append_assoc]
        simp only [update, trails.ids_eq, List.flatMap_append]
        split
        · next nobody => simp [nobody]
        · rw [List.flatMap_singleton] }

theorem conclude_lags (lags : Lags master.text planned ids told due busy still) :
    (conclude enqueue master busy).Both (Trails ids told due) (conclude notify master still) := by
  obtain ⟨layout, carries, same⟩ := lags.made
  have idle : still.projection.planned = none := by rw [same]
  rw [conclude_of_carries lags.announced carries, conclude_of_idle idle, report, enqueue_eq]
  refine .done {
    dispatching := lags.dispatching
    notices := ?_
    ids_eq := lags.ids_eq
    same := ?_
    delivered := ?_ }
  · exact (notices_record_applied _ _).trans lags.notices
  · rw [same]
    rfl
  · rw [lags.delivered]
    simp only [update, record, lags.queue_eq, lags.ids_eq, List.nil_append]
    split
    · next nobody => simp [nobody]
    · rw [List.flatMap_singleton]

/-- Whatever a request for ranges comes to, it comes to the same in both sessions. -/
theorem request_due (informs : notify.Informs) {request : Request} (ranges : request.Ranges)
    (pair : Due master.text lag ids told due busy still) :
    Due master.text lag ids told due (busy.request enqueue master request).1
        (still.request notify master request).1 ∧
      (busy.request enqueue master request).2 = (still.request notify master request).2 := by
  have pairing : Pairing enqueue notify master (Trails (μ := μ) ids told due) :=
    pairing_trails informs
  rcases pair with trails | ⟨planned, found, lags⟩
  · have refuses : busy.projection.refuses? = still.projection.refuses? := by
      rw [trails.same]
      rfl
    rcases request_both pairing ranges refuses (conclude_both pairing trails) with
      ⟨error, one, other⟩ | ⟨trails', replies⟩
    · rw [one, other]
      exact ⟨.inl trails, rfl⟩
    · exact ⟨.inl trails', replies⟩
  · have refuses : busy.projection.refuses? = still.projection.refuses? := by
      obtain ⟨layout, -, same⟩ := lags.made
      rw [same]
      rfl
    -- A request that is refused leaves even the range change that lags behind alone.
    rcases request_both pairing ranges refuses (conclude_lags lags) with
      ⟨error, one, other⟩ | ⟨trails, replies⟩
    · rw [one, other]
      exact ⟨.inr ⟨planned, found, lags⟩, rfl⟩
    · exact ⟨.inl trails, replies⟩

section
variable {text : Text}

theorem Due.tells (pair : Due text lag ids told due busy still) : busy.Busy told := by
  rcases pair with trails | ⟨_, -, lags⟩
  · exact trails.toBusy
  · exact lags.toBusy

theorem Due.ids_eq (pair : Due text lag ids told due busy still) :
    busy.projection.listeners.ids = ids := by
  rcases pair with trails | ⟨_, -, lags⟩
  · exact trails.ids_eq
  · exact lags.ids_eq

theorem Due.closed? (pair : Due text lag ids told due busy still) :
    busy.projection.closed? = still.projection.closed? := by
  rcases pair with trails | ⟨_, -, lags⟩
  · rw [trails.same]
    rfl
  · obtain ⟨_, -, same⟩ := lags.made
    rw [same]
    rfl

theorem Due.congr (pair : Due text lag ids told due busy still) (other : Session μ)
    (same : other.projection = busy.projection) {heard : List (Nat × Notification)}
    (notices : other.notices = heard) : Due text lag ids heard due other still := by
  have dispatching : other.projection.listeners.dispatching = true := same ▸ pair.tells.dispatching
  rcases pair with trails | ⟨planned, found, lags⟩
  · exact .inl {
      dispatching, notices
      ids_eq := same ▸ trails.ids_eq
      same := same ▸ trails.same
      delivered := same ▸ trails.delivered }
  · exact .inr ⟨planned, found, {
      dispatching, notices
      ids_eq := same ▸ lags.ids_eq
      queue_eq := same ▸ lags.queue_eq
      announced := same ▸ lags.announced
      made := same ▸ lags.made
      delivered := lags.delivered }⟩

end

/-- Requests of a listener come to the same as those that are made when nobody is told of
anything. -/
theorem perform_making (informs : notify.Informs) {requests : List Request}
    (ranges : ∀ request ∈ requests, request.Ranges) (finish : List Reply → Reaction μ)
    (enough : requests.length ≤ busy.allowance) (pair : Due master.text lag ids told due busy still) :
    ∃ after, perform master (.making finish requests) busy =
        perform master (finish (still.requests notify master requests).2) after ∧
      Due master.text lag ids told due after (still.requests notify master requests).1 := by
  induction requests generalizing busy still finish with
  | nil => exact ⟨busy, rfl, pair⟩
  | cons request others ih =>
    obtain ⟨here, later⟩ := List.forall_mem_cons.mp ranges
    obtain ⟨allowance, some⟩ := Nat.exists_eq_add_one_of_ne_zero
      (Nat.ne_of_gt (Nat.lt_of_lt_of_le (Nat.succ_pos _) enough))
    obtain ⟨pair', replies⟩ := request_due informs here pair
    rw [some, List.length_cons, Nat.add_le_add_iff_right] at enough
    have spent := pair'.congr { (busy.request enqueue master request).1 with allowance } rfl
      pair'.tells.notices
    obtain ⟨after, performed, pairAfter⟩ := ih later (fun replies =>
      finish ((still.request notify master request).2 :: replies)) enough spent
    refine ⟨after, ?_, pairAfter⟩
    simp only [Reaction.making, perform_act, some, act, replies, performed, requests]

end Session

end TextProjection
