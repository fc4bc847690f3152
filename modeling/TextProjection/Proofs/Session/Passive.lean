import TextProjection.Proofs.Session.Dispatch

/-! Listeners that only look on. Telling them of a change leaves the projection as it is, and each
of them is told at once.
-/

set_option autoImplicit false

namespace TextProjection

variable {μ : Type}

/-- All that the listeners change as they react is what they remember and how many acts they have
left. -/
def Audience.Passive (audience : Audience μ) : Prop :=
  ∀ (session : Session μ) (delivery : Delivery), delivery.projection = session.projection →
    ∃ memory allowance, Session.perform delivery.master (audience session.memory delivery) session =
      { session with memory, allowance }

/-- By what the listeners remember and may still do, they only look on as one of them is told of
something, and it stays like that. -/
def Audience.LooksOn (audience : Audience μ) (told : Nat → Notification → Prop)
    (quiet : μ → Nat → Prop) : Prop :=
  ∀ (session : Session μ) (delivery : Delivery), delivery.projection = session.projection →
    told delivery.listener delivery.notification → quiet session.memory session.allowance →
    ∃ memory allowance, quiet memory allowance ∧
      Session.perform delivery.master (audience session.memory delivery) session =
        { session with memory, allowance }

theorem Audience.Passive.looksOn {audience : Audience μ} (passive : audience.Passive) :
    audience.LooksOn (fun _ _ => True) fun _ _ => True := by
  intro session delivery same _ _
  obtain ⟨memory, allowance, unchanged⟩ := passive session delivery same
  exact ⟨memory, allowance, trivial, unchanged⟩

def Audience.counting : Audience Nat := fun count _ => .rest (count + 1)

theorem Audience.counting_passive : counting.Passive := fun session _ _ =>
  ⟨session.memory + 1, session.allowance, rfl⟩

def Listeners.Drained (listeners : Listeners) : Prop :=
  listeners.queue = [] ∧ listeners.dispatching = false

theorem Listeners.Drained.ends {listeners : Listeners} (drained : listeners.Drained) :
    { listeners with queue := [], dispatching := false } = listeners := by
  obtain ⟨queue, dispatching⟩ := drained
  rw [← queue, ← dispatching]

def Entry.notice? : Entry → Option (Nat × Notification)
  | .applied _ => none
  | .delivered delivery => some (delivery.listener, delivery.notification)

def Session.notices (session : Session μ) : List (Nat × Notification) :=
  session.journal.filterMap Entry.notice?

/-- A listener watches a projection of the first two and the last two of five characters. -/
def Session.twoEnds : Session Nat where
  projection := {
    layout := ⟨[⟨⟨0, 2, false⟩, ⟨0, 2, false⟩⟩, ⟨⟨3, 2, false⟩, ⟨2, 2, false⟩⟩]⟩
    text := ['a', 'b', 'd', 'e']
    listeners := { ids := [0], nextId := 1 } }
  memory := 0
  allowance := 0

theorem Session.twoEnds_wellFormed :
    twoEnds.projection.WellFormed ['a', 'b', 'c', 'd', 'e'] where
  layout := {
    live := by decide
    tiled := by simp [twoEnds, Layout.Tiles]
    apart := by decide
    solid := by decide
    inside := by decide }
  text_eq := rfl

/-- Telling the listeners changes nothing of the projection but its listeners. -/
def Notifier.Spares (notify : Notifier μ) (master : Master) : Prop :=
  ∀ before : Projection, notify.Keeps master fun projection =>
    ∃ listeners, projection = { before with listeners }

/-- With no notification on its way, telling the listeners tells each of them once, and does
nothing else to the projection. -/
def Notifier.Informs (notify : Notifier μ) : Prop :=
  ∀ master phase change session, session.projection.listeners.Drained →
    (notify master phase change session).projection = session.projection ∧
      (notify master phase change session).notices =
        session.notices ++ session.projection.listeners.ids.map (·, ⟨phase, change⟩)

namespace Session

theorem notices_record_applied (session : Session μ) (change : Change) :
    (session.record (.applied change)).notices = session.notices := by
  simp [notices, record, Entry.notice?]

variable {audience : Audience μ} {master : Master}

section
variable (passive : audience.Passive)

include passive in
theorem publish_spares : (publish audience).Spares master := by
  intro before
  apply publish_keeps
  · rintro _ listeners ⟨_, rfl⟩
    exact ⟨listeners, rfl⟩
  · rintro session delivery rfl same holds
    obtain ⟨memory, allowance, unchanged⟩ := passive session delivery same
    rw [unchanged]
    exact holds

end

theorem drain_of_empty {session : Session μ} (empty : session.projection.listeners.queue = [])
    (rounds : Nat) : drain audience master rounds session = session := by
  cases rounds with
  | zero => rfl
  | succ rounds => simp [drain, empty]

theorem publish_of_drained {session : Session μ} (drained : session.projection.listeners.Drained)
    (somebody : session.projection.listeners.ids ≠ []) (phase : Phase) (change : Change) :
    publish audience master phase change session =
      (drain audience master (session.allowance + 1) (session.update fun projection => { projection with
        listeners.queue := [⟨phase, change⟩], listeners.dispatching := true })).setDispatching
          false := by
  obtain ⟨queue, dispatching⟩ := drained
  simp [publish, enqueue, somebody, queue, dispatching, update, setDispatching]

section
variable (master) {told : Nat → Notification → Prop} {quiet : μ → Nat → Prop}
  (looks : audience.LooksOn told quiet) (notification : Notification) {session : Session μ}

include looks

theorem deliverTo_informs {listener : Nat}
    (subscribed : listener ∈ session.projection.listeners.ids)
    (concerned : told listener notification) (still : quiet session.memory session.allowance) :
    (deliverTo audience master notification session listener).projection = session.projection ∧
      (deliverTo audience master notification session listener).notices =
        session.notices ++ [(listener, notification)] ∧
      quiet (deliverTo audience master notification session listener).memory
        (deliverTo audience master notification session listener).allowance := by
  obtain ⟨memory, allowance, stays, unchanged⟩ := looks
    (session.record (.delivered ⟨listener, notification, master, session.projection⟩))
    ⟨listener, notification, master, session.projection⟩ rfl concerned still
  simp only [record] at unchanged
  simp only [deliverTo, if_pos subscribed, record, unchanged]
  exact ⟨trivial, by simp [notices, Entry.notice?], stays⟩

theorem deliverAll_informs {listeners : List Nat}
    (subscribed : ∀ listener ∈ listeners, listener ∈ session.projection.listeners.ids)
    (concerned : ∀ listener ∈ listeners, told listener notification)
    (still : quiet session.memory session.allowance) :
    (listeners.foldl (deliverTo audience master notification) session).projection =
        session.projection ∧
      (listeners.foldl (deliverTo audience master notification) session).notices =
        session.notices ++ listeners.map (·, notification) ∧
      quiet (listeners.foldl (deliverTo audience master notification) session).memory
        (listeners.foldl (deliverTo audience master notification) session).allowance := by
  induction listeners generalizing session with
  | nil => exact ⟨rfl, (List.append_nil _).symm, still⟩
  | cons listener rest ih =>
    obtain ⟨first, others⟩ := List.forall_mem_cons.mp subscribed
    obtain ⟨firstConcerned, othersConcerned⟩ := List.forall_mem_cons.mp concerned
    obtain ⟨projection, notices, stays⟩ :=
      deliverTo_informs master looks notification first firstConcerned still
    obtain ⟨projection', notices', remains⟩ := ih (projection ▸ others) othersConcerned stays
    refine ⟨projection'.trans projection, ?_, remains⟩
    rw [List.foldl_cons, notices', notices, List.map_cons, List.append_assoc]
    rfl

theorem deliver_informs (concerned : ∀ listener, told listener notification)
    (still : quiet session.memory session.allowance) :
    (deliver audience master notification session).projection = session.projection ∧
      (deliver audience master notification session).notices =
        session.notices ++ session.projection.listeners.ids.map (·, notification) ∧
      quiet (deliver audience master notification session).memory
        (deliver audience master notification session).allowance :=
  deliverAll_informs master looks notification (fun _ member => member)
    (fun listener _ => concerned listener) still

theorem deliverMany_informs {waiting rest : List Notification}
    (queue : session.projection.listeners.queue = waiting ++ rest)
    (concerned : ∀ notification ∈ waiting, ∀ listener, told listener notification)
    (still : quiet session.memory session.allowance) :
    (deliverMany audience master waiting.length session).projection =
        { session.projection with listeners.queue := rest } ∧
      (deliverMany audience master waiting.length session).notices = session.notices ++
        (waiting.flatMap fun notification =>
          session.projection.listeners.ids.map (·, notification)) ∧
      quiet (deliverMany audience master waiting.length session).memory
        (deliverMany audience master waiting.length session).allowance := by
  induction waiting generalizing session with
  | nil =>
    refine ⟨?_, (List.append_nil _).symm, still⟩
    rw [List.nil_append] at queue
    rw [← queue]
    rfl
  | cons notification others ih =>
    obtain ⟨here, later⟩ := List.forall_mem_cons.mp concerned
    generalize taken : (session.update fun projection =>
      { projection with listeners.queue := others ++ rest }) = waits
    have projected : waits.projection =
        { session.projection with listeners.queue := others ++ rest } := taken ▸ rfl
    have heard : waits.notices = session.notices := taken ▸ rfl
    have stays : quiet waits.memory waits.allowance := taken ▸ still
    have next : deliverNext audience master session = deliver audience master notification waits := by
      simp only [deliverNext, queue, List.cons_append, taken]
    obtain ⟨projection, notices, remains⟩ :=
      deliver_informs master looks notification here stays
    obtain ⟨projection', notices', quiet'⟩ := ih (by rw [projection, projected]) later remains
    rw [List.length_cons, deliverMany, next]
    refine ⟨projection'.trans (by rw [projection, projected]), ?_, quiet'⟩
    rw [notices', notices, projection, projected, heard, List.flatMap_cons, List.append_assoc]

theorem drain_informs
    (concerned : ∀ notification ∈ session.projection.listeners.queue, ∀ listener,
      told listener notification) (still : quiet session.memory session.allowance) {rounds : Nat}
    (enough : session.projection.listeners.queue = [] ∨ 0 < rounds) :
    (drain audience master rounds session).projection =
        { session.projection with listeners.queue := [] } ∧
      (drain audience master rounds session).notices = session.notices ++
        (session.projection.listeners.queue.flatMap fun notification =>
          session.projection.listeners.ids.map (·, notification)) ∧
      quiet (drain audience master rounds session).memory
        (drain audience master rounds session).allowance := by
  have all : session.projection.listeners.queue = session.projection.listeners.queue ++ [] :=
    (List.append_nil _).symm
  obtain ⟨projection, notices, stays⟩ := deliverMany_informs master looks all concerned still
  by_cases empty : session.projection.listeners.queue = []
  · rw [drain_of_empty empty]
    rw [empty] at projection notices stays ⊢
    exact ⟨projection, notices, stays⟩
  · obtain ⟨rounds, rfl⟩ := Nat.exists_eq_succ_of_ne_zero (enough.resolve_left empty).ne'
    have round : drain audience master (rounds + 1) session = drain audience master rounds
        (deliverMany audience master session.projection.listeners.queue.length session) := by
      simp [drain, empty]
    rw [round, drain_of_empty (by rw [projection])]
    exact ⟨projection, notices, stays⟩

theorem publish_looks (phase : Phase) (change : Change) (drained : session.projection.listeners.Drained)
    (concerned : ∀ listener, told listener ⟨phase, change⟩)
    (still : quiet session.memory session.allowance) :
    (publish audience master phase change session).projection = session.projection ∧
      (publish audience master phase change session).notices =
        session.notices ++ session.projection.listeners.ids.map (·, ⟨phase, change⟩) ∧
      quiet (publish audience master phase change session).memory
        (publish audience master phase change session).allowance := by
  by_cases nobody : session.projection.listeners.ids = []
  · simp [publish, enqueue, nobody, still]
  · rw [publish_of_drained drained nobody]
    generalize waiting : (session.update fun projection => { projection with
      listeners.queue := [⟨phase, change⟩], listeners.dispatching := true }) = waits
    have projected : waits.projection = { session.projection with
        listeners.queue := [⟨phase, change⟩], listeners.dispatching := true } := waiting ▸ rfl
    have heard : waits.notices = session.notices := waiting ▸ rfl
    have stays : quiet waits.memory waits.allowance := waiting ▸ still
    have all : ∀ notification ∈ waits.projection.listeners.queue, ∀ listener,
        told listener notification := by
      simpa [projected] using concerned
    obtain ⟨projection, notices, remains⟩ := drain_informs master looks all stays
      (.inr session.allowance.succ_pos)
    refine ⟨?_, notices.trans ?_, remains⟩
    · change { (drain audience master _ _).projection with listeners.dispatching := false } = _
      rw [projection, projected]
      exact congrArg (fun listeners => { session.projection with listeners }) drained.ends
    · rw [heard, projected]
      simp

end

theorem publish_informs (passive : audience.Passive) : (publish audience).Informs := by
  intro master phase change session drained
  obtain ⟨projection, notices, -⟩ :=
    publish_looks master passive.looksOn phase change drained (fun _ => trivial) trivial
  exact ⟨projection, notices⟩

end Session

end TextProjection
