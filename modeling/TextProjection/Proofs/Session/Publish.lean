import TextProjection.Proofs.Session.Passive
import TextProjection.Proofs.Session.Stems

/-! Publishing goes step by step, as long as no listener gives the projection up, and it goes on until
nothing waits to be told any more.
-/

set_option autoImplicit false

namespace TextProjection

variable {μ : Type}

inductive Reaction.Forbears : Reaction μ → Prop
  | rest (memory : μ) : Forbears (.rest memory)
  | act {request : Request} (keeps : request ≠ .dispose)
      (next : Reply → Projection → Reaction μ)
      (follow : ∀ reply projection, (next reply projection).Forbears) :
      Forbears (.act (.request request) next)

def Audience.Forbears (audience : Audience μ) : Prop :=
  ∀ memory delivery, (audience memory delivery).Forbears

theorem Reaction.Forbears.requests {reaction : Reaction μ} (forbears : reaction.Forbears) :
    reaction.Requests := by
  induction forbears with
  | rest memory => exact .rest memory
  | act _ next _ ih => exact .act _ next ih

theorem Audience.Forbears.requests {audience : Audience μ} (forbears : audience.Forbears) :
    audience.Requests :=
  fun memory delivery => (forbears memory delivery).requests

theorem Audience.once_forbears {request : Request} (keeps : request ≠ .dispose) :
    (once request).Forbears := by
  intro told _
  cases told with
  | true => exact .rest true
  | false => exact .act keeps _ fun _ _ => .rest true

/-- Listeners do nothing on being told of which they would have to be told in turn, such as changing
the projection. -/
def Audience.Quiet (audience : Audience μ) : Prop :=
  ∀ (session : Session μ) (delivery : Delivery), delivery.projection = session.projection →
    (Session.perform delivery.master (audience session.memory delivery)
      session).projection.listeners.queue = session.projection.listeners.queue

theorem Audience.Passive.quiet {audience : Audience μ} (passive : audience.Passive) :
    audience.Quiet := by
  intro session delivery same
  obtain ⟨memory, allowance, unchanged⟩ := passive session delivery same
  rw [unchanged]

/-- How listeners are found when one of them is told of something. If they are quiet, nothing else
waits to be told. -/
def Audience.telling (audience : Audience μ) (listeners : Listeners) : Prop :=
  listeners.dispatching = true ∧ (audience.Quiet → listeners.queue = [])

def Audience.waiting (audience : Audience μ) (listeners : Listeners) : Prop :=
  listeners.dispatching = true ∧ (audience.Quiet → listeners.queue.length ≤ 1)

theorem Audience.waiting_of_telling {audience : Audience μ} {listeners : Listeners}
    (telling : audience.telling listeners) : audience.waiting listeners :=
  ⟨telling.1, fun quiet => by simp [telling.2 quiet]⟩

theorem Audience.telling_of_waiting {audience : Audience μ} {listeners : Listeners}
    (waiting : audience.waiting listeners) {notification : Notification} {rest : List Notification}
    (queue : listeners.queue = notification :: rest) :
    audience.telling { listeners with queue := rest } := by
  refine ⟨waiting.1, fun quiet => ?_⟩
  have single := waiting.2 quiet
  rw [queue, List.length_cons] at single
  exact List.length_eq_zero_iff.mp (Nat.le_zero.mp (Nat.le_of_succ_le_succ single))

namespace Session

variable {audience : Audience μ} {master : Master} {session : Session μ}

/-! Publishing comes to an end -/

def Spends (before after : Session μ) : Prop :=
  after.allowance < before.allowance ∨
    after.allowance = before.allowance ∧
      after.projection.listeners.queue = before.projection.listeners.queue

theorem Spends.refl (session : Session μ) : session.Spends session := .inr ⟨rfl, rfl⟩

theorem Spends.trans {first second third : Session μ} (one : first.Spends second)
    (other : second.Spends third) : first.Spends third := by
  rcases one with less | ⟨same, queue⟩
  · rcases other with lesser | ⟨same, -⟩
    · exact .inl (Nat.lt_trans lesser less)
    · exact .inl (same ▸ less)
  · rcases other with less | ⟨still, queue'⟩
    · exact .inl (same ▸ less)
    · exact .inr ⟨still.trans same, queue'.trans queue⟩

theorem perform_spends (master : Master) (reaction : Reaction μ) (session : Session μ) :
    session.Spends (perform master reaction session) := by
  induction reaction generalizing session with
  | rest memory => exact .inr ⟨rfl, rfl⟩
  | act act next ih =>
    rw [perform_act]
    split
    · exact .refl session
    · next allowance enough =>
      -- However the act changes the session, it takes one off the allowance.
      left
      rcases ih _ _ { (session.act enqueue master act).1 with allowance } with less | ⟨same, -⟩
      · exact Nat.lt_of_lt_of_le less (by simp [enough])
      · exact Nat.lt_of_le_of_lt same.le (by simp [enough])

theorem deliver_spends (audience : Audience μ) (master : Master) (notification : Notification)
    (session : Session μ) : session.Spends (deliver audience master notification session) := by
  unfold deliver
  refine List.foldlRecOn (motive := fun after : Session μ => session.Spends after) _ _ (.refl session)
    fun after spends listener _ => spends.trans ?_
  unfold deliverTo
  split
  · exact perform_spends master _ (after.record _)
  · exact .refl after

theorem deliverMany_spends (audience : Audience μ) (master : Master) (count : Nat)
    (session : Session μ) :
    (deliverMany audience master count session).allowance < session.allowance ∨
      (deliverMany audience master count session).allowance = session.allowance ∧
        (deliverMany audience master count session).projection.listeners.queue =
          session.projection.listeners.queue.drop count := by
  induction count generalizing session with
  | zero => exact .inr ⟨rfl, rfl⟩
  | succ count ih =>
    have next : (deliverNext audience master session).allowance < session.allowance ∨
        (deliverNext audience master session).allowance = session.allowance ∧
          (deliverNext audience master session).projection.listeners.queue =
            session.projection.listeners.queue.drop 1 := by
      unfold deliverNext
      split
      · next empty => exact .inr ⟨rfl, by rw [empty]; rfl⟩
      · next notification rest waiting =>
        rw [waiting]
        exact deliver_spends audience master notification _
    unfold deliverMany
    rcases ih (deliverNext audience master session) with less | ⟨same, queue⟩
    · rcases next with lesser | ⟨same, -⟩
      · exact .inl (Nat.lt_trans less lesser)
      · exact .inl (same ▸ less)
    · rcases next with less | ⟨still, rest⟩
      · exact .inl (same ▸ less)
      · refine .inr ⟨same.trans still, ?_⟩
        rw [queue, rest, List.drop_drop, Nat.add_comm]

/-- With a round for each act that listeners can perform and one more, everything is told. -/
theorem drain_queue (audience : Audience μ) (master : Master) {rounds : Nat} {session : Session μ}
    (enough : session.allowance ≤ rounds) :
    (drain audience master (rounds + 1) session).projection.listeners.queue = [] := by
  induction rounds generalizing session with
  | zero =>
    rw [drain]
    split
    · next empty => exact List.isEmpty_iff.mp empty
    · rcases deliverMany_spends audience master session.projection.listeners.queue.length session with
        less | ⟨-, told⟩
      · exact absurd (Nat.lt_of_lt_of_le less enough) (Nat.not_lt_zero _)
      · exact told.trans List.drop_length
  | succ rounds ih =>
    rw [drain]
    split
    · next empty => exact List.isEmpty_iff.mp empty
    · rcases deliverMany_spends audience master session.projection.listeners.queue.length session with
        less | ⟨-, told⟩
      · exact ih (Nat.le_of_lt_succ (Nat.lt_of_lt_of_le less enough))
      · rw [drain_of_empty (told.trans List.drop_length)]
        exact told.trans List.drop_length

/-- Whatever the listeners do, nothing is on its way when all of them were told. -/
theorem publish_drained (audience : Audience μ) (master : Master) (phase : Phase) (change : Change)
    (drained : session.projection.listeners.Drained) :
    (publish audience master phase change session).projection.listeners.Drained := by
  obtain ⟨queue, dispatching⟩ := drained
  unfold publish
  split
  · next silent =>
    have nobody : session.projection.listeners.ids.isEmpty = true := by
      simpa [dispatching] using silent
    rw [enqueue, if_pos nobody]
    exact ⟨queue, dispatching⟩
  · have allowance : ((enqueue master phase change session).setDispatching true).allowance =
        session.allowance := by
      rw [enqueue_eq]
      rfl
    exact ⟨drain_queue audience master allowance.le, rfl⟩

/-! Publishing step by step -/

theorem perform_induction (master : Master) (property : Session μ → Prop)
    (silent : ∀ (session : Session μ) memory allowance, property session →
      property { session with memory, allowance })
    (kept : ∀ (session : Session μ) request, request ≠ .dispose → property session →
      property (session.request enqueue master request).1)
    {reaction : Reaction μ} (forbears : reaction.Forbears) (holds : property session) :
    property (perform master reaction session) := by
  induction forbears generalizing session with
  | rest memory => exact silent session memory session.allowance holds
  | act keeps next _ ih =>
    rw [perform_act]
    split
    · exact holds
    · next allowance _ =>
      have made := kept session _ keeps holds
      exact ih _ _ (silent _ (session.request enqueue master _).1.memory allowance made)

def reacting (changes : Change → Prop) (telling : Listeners → Prop)
    (ranges : ∀ change, change.kind = .projection → changes change)
    (current : Option (Notification × List Nat)) : Regime where
  changes := changes
  telling := telling
  between listeners := listeners.dispatching = true
  current := current
  ranges := ranges
  anyone _ _ _ dispatching := dispatching

section
variable {changes : Change → Prop} {telling : Listeners → Prop}
  {ranges : ∀ change, change.kind = .projection → changes change}
  {current : Option (Notification × List Nat)} {first : Moment μ}

theorem enqueue_paces : (enqueue : Notifier μ).Paces (reacting changes telling ranges current) where
  ranges master phase change session poised dispatching := by
    rw [enqueue_eq]
    exact ⟨⟨.refl, dispatching, poised⟩, id⟩
  held before _ master phase change session held dispatching := by
    have keeps : (enqueue : Notifier μ).Keeps master before.Held :=
      enqueue_keeps Projection.casual_held.audience
    refine ⟨.refl, ?_, keeps phase change session held⟩
    rw [enqueue_eq]
    exact dispatching

/-- What is known while listeners are told of a change of ranges, or of one that was made. -/
structure Steady (was : Option Planned) (projection : Projection) : Prop where
  poised : projection.Poised
  idle : was = none → projection.planned = none

/-- What can be said of a projection whose listeners are being told goes on to hold while they react,
and they react step by step. The change that is open may depend on the projection. -/
structure Abides (audience : Audience μ) (master : Master) (changes : Change → Prop)
    (telling : Listeners → Prop) (property : Projection → Prop)
    (opened : Projection → Option Change) : Prop where
  free : ∀ projection listeners, property projection → property { projection with listeners }
  same : ∀ projection listeners, opened { projection with listeners } = opened projection
  reacts : ∀ {first : Moment μ} {current} (session : Session μ) (delivery : Delivery),
    property session.projection → session.projection.listeners.dispatching = true →
      Moment.Leads changes telling first ⟨session, opened session.projection, current⟩ →
      let after := perform master (audience session.memory delivery) session
      property after.projection ∧ after.projection.listeners.dispatching = true ∧
        Moment.Leads changes telling first ⟨after, opened after.projection, current⟩

theorem abides_steady (master : Master) (forbears : audience.Forbears)
    (ranges : ∀ change, change.kind = .projection → changes change) (was : Option Planned) :
    Abides audience master changes telling (Steady was) Projection.announced where
  free _ _ steady := ⟨steady.poised, steady.idle⟩
  same _ _ := rfl
  reacts {first current} session delivery steady dispatching leads := by
    have stems : session.Stems (reacting changes telling ranges current) first :=
      ⟨leads, dispatching, steady.poised⟩
    obtain ⟨stems, idle⟩ := perform_induction master
      (fun session => session.Stems (reacting changes telling ranges current) first ∧
        (was = none → session.projection.planned = none))
      (fun session memory allowance holds =>
        ⟨holds.1.rest ⟨⟨rfl, rfl, rfl⟩, rfl, id⟩ rfl holds.1.poised, holds.2⟩)
      (fun session request keeps holds => by
        obtain ⟨stems, idles⟩ := request_stems enqueue_paces master holds.1 keeps
        exact ⟨stems, fun none => idles (holds.2 none)⟩)
      (forbears session.memory delivery) ⟨stems, steady.idle⟩
    exact ⟨⟨stems.poised, idle⟩, stems.between, stems.leads⟩

theorem abides_held (master : Master) (forbears : audience.Forbears)
    (ranges : ∀ change, change.kind = .projection → changes change) {before : Projection}
    (pending : before.pending.isSome = true) (change : Change) :
    Abides audience master changes telling before.Held fun _ => some change where
  free := Projection.casual_held.audience
  same _ _ := rfl
  reacts {first current} session delivery held dispatching leads := by
    have opens : session.Opens (reacting changes telling ranges current) first before change :=
      ⟨leads, dispatching, held⟩
    obtain ⟨leads, dispatching, held⟩ := perform_induction master
      (fun session => session.Opens (reacting changes telling ranges current) first before change)
      (fun session memory allowance opens =>
        ⟨opens.leads.tail (.rest ⟨⟨rfl, rfl, rfl⟩, rfl, id⟩), opens.between, opens.held⟩)
      (fun session request keeps opens => request_opens pending opens keeps)
      (forbears session.memory delivery) opens
    exact ⟨held, dispatching, leads⟩

end

/-- The session is one that the moment has led to, with something being delivered. -/
structure Goes (audience : Audience μ) (changes : Change → Prop) (property : Projection → Prop)
    (opened : Projection → Option Change) (first : Moment μ)
    (current : Option (Notification × List Nat)) (ready : Listeners → Prop) (session : Session μ) :
    Prop where
  leads : Moment.Leads changes audience.telling first
    ⟨session, opened session.projection, current⟩
  holds : property session.projection
  ready : ready session.projection.listeners

section
variable {changes : Change → Prop} {property : Projection → Prop}
  {opened : Projection → Option Change} {first : Moment μ}
  (abides : Abides audience master changes audience.telling property opened)

include abides in
theorem deliverTo_goes {notification : Notification} {listener : Nat} {rest : List Nat}
    (goes : session.Goes audience changes property opened first
      (some (notification, listener :: rest)) audience.telling) :
    (deliverTo audience master notification session listener).Goes audience changes property opened
      first (some (notification, rest)) audience.telling := by
  obtain ⟨leads, holds, ready⟩ := goes
  unfold deliverTo
  split
  · next subscribed =>
    generalize same : (⟨listener, notification, master, session.projection⟩ : Delivery) = delivery
    have handed : Moment.Leads changes audience.telling first
        ⟨session.record (.delivered delivery), opened session.projection,
          some (notification, rest)⟩ :=
      same ▸ leads.tail (.hand master ready subscribed)
    obtain ⟨holds, dispatching, leads⟩ :=
      abides.reacts (session.record (.delivered delivery)) delivery holds ready.1 handed
    refine ⟨leads, holds, dispatching, fun quiet => ?_⟩
    have queue := quiet (session.record (.delivered delivery)) delivery (same ▸ rfl)
    rw [← same] at queue ⊢
    exact queue.trans (ready.2 quiet)
  · next left => exact ⟨leads.tail (.pass left), holds, ready⟩

include abides in
theorem deliver_goes {notification : Notification} {listeners : List Nat}
    (goes : session.Goes audience changes property opened first (some (notification, listeners))
      audience.telling) (all : session.projection.listeners.ids = listeners) :
    (deliver audience master notification session).Goes audience changes property opened first none
      audience.telling := by
  suffices told : ∀ (listeners : List Nat) (session : Session μ),
      session.Goes audience changes property opened first (some (notification, listeners))
        audience.telling →
      (listeners.foldl (deliverTo audience master notification) session).Goes audience changes
        property opened first none audience.telling from told _ session (all ▸ goes)
  intro listeners
  induction listeners with
  | nil => exact fun session goes => ⟨goes.leads.tail .finish, goes.holds, goes.ready⟩
  | cons listener rest ih =>
    exact fun session goes => ih _ (deliverTo_goes abides goes)

include abides in
theorem deliverMany_goes (count : Nat)
    (goes : session.Goes audience changes property opened first none audience.waiting) :
    (deliverMany audience master count session).Goes audience changes property opened first none
      audience.waiting := by
  induction count generalizing session with
  | zero => exact goes
  | succ count ih =>
    apply ih
    unfold deliverNext
    split
    · exact goes
    · next notification rest waiting =>
      have taken : (session.update fun projection =>
          { projection with listeners.queue := rest }).Goes audience changes property opened first
          (some (notification, session.projection.listeners.ids)) audience.telling := by
        refine ⟨?_, abides.free _ _ goes.holds, Audience.telling_of_waiting goes.ready waiting⟩
        have same := abides.same session.projection { session.projection.listeners with queue := rest }
        simp only [update]
        rw [same]
        exact goes.leads.tail (.take waiting)
      have told := deliver_goes abides taken rfl
      exact ⟨told.leads, told.holds, Audience.waiting_of_telling told.ready⟩

include abides in
theorem drain_goes (rounds : Nat)
    (goes : session.Goes audience changes property opened first none audience.waiting) :
    (drain audience master rounds session).Goes audience changes property opened first none
      audience.waiting := by
  induction rounds generalizing session with
  | zero => exact goes
  | succ rounds ih =>
    unfold drain
    split
    · exact goes
    · exact ih (deliverMany_goes abides _ goes)

end

section
variable {changes : Change → Prop} {property : Projection → Prop}
  {opened : Projection → Option Change}
  (abides : Abides audience master changes audience.telling property opened)

include abides in
theorem Goes.switch {first : Moment μ} {ready other : Listeners → Prop} (on : Bool)
    (goes : session.Goes audience changes property opened first none ready)
    (switched : other (session.setDispatching on).projection.listeners) :
    (session.setDispatching on).Goes audience changes property opened first none other where
  leads := by
    have same : opened (session.setDispatching on).projection = opened session.projection :=
      abides.same _ _
    rw [same]
    exact goes.leads.tail (.switch on)
  holds := abides.free _ _ goes.holds
  ready := switched

include abides in
/-- From where a notification was put into the queue, publishing goes step by step. -/
theorem publish_goes (holds : property session.projection)
    (drained : session.projection.listeners.Drained) (phase : Phase) (change : Change) :
    (publish audience master phase change session).Goes audience changes property opened
      ⟨enqueue master phase change session, opened session.projection, none⟩ none
        Listeners.Drained := by
  have drainedAfter := publish_drained audience master phase change drained
  obtain ⟨queue, -⟩ := drained
  have few : (enqueue master phase change session).projection.listeners.queue.length ≤ 1 := by
    rw [enqueue_eq]
    simp only [update, queue, List.nil_append]
    split <;> simp
  have queued : (enqueue master phase change session).Goes audience changes property opened
      ⟨enqueue master phase change session, opened session.projection, none⟩ none
        (·.queue.length ≤ 1) := by
    refine ⟨?_, ?_, few⟩
    · have still : opened (enqueue master phase change session).projection =
          opened session.projection := by
        rw [enqueue_eq]
        exact abides.same _ _
      rw [still]
      exact .refl
    · rw [enqueue_eq]
      exact abides.free _ _ holds
  unfold publish at drainedAfter ⊢
  split at drainedAfter
  · next silent =>
    rw [if_pos silent]
    exact ⟨queued.leads, queued.holds, drainedAfter⟩
  · next speaking =>
    rw [if_neg speaking]
    have told := drain_goes abides (session.allowance + 1)
      (queued.switch abides true ⟨rfl, fun _ => few⟩)
    exact told.switch abides false drainedAfter

end

def hearing (audience : Audience μ) (changes : Change → Prop)
    (ranges : ∀ change, change.kind = .projection → changes change) : Regime where
  changes := changes
  telling := audience.telling
  between := Listeners.Drained
  current := none
  ranges := ranges
  anyone _ _ _ drained := drained

theorem publish_paces (forbears : audience.Forbears) (changes : Change → Prop)
    (ranges : ∀ change, change.kind = .projection → changes change) :
    (publish audience).Paces (hearing audience changes ranges) where
  ranges master phase change session poised drained := by
    have goes := publish_goes (abides_steady master forbears ranges session.projection.planned)
      ⟨poised, id⟩ drained phase change
    exact ⟨⟨goes.leads, goes.ready, goes.holds.poised⟩, goes.holds.idle⟩
  held before pending master phase change session held drained := by
    have goes :=
      publish_goes (abides_held master forbears ranges pending change) held drained phase change
    exact ⟨goes.leads, goes.ready, goes.holds⟩

end Session

end TextProjection
