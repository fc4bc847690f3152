import TextProjection.Proofs.Session.Rounds

/-! What a call can cost at most: how many changes are made and how many listeners are told of one, by
how many there are and how much they may still do. The bound on what one addition may fill plays no
part.
-/

set_option autoImplicit false

namespace TextProjection

variable {μ : Type}

namespace Session

def crowd (session : Session μ) : Nat :=
  session.projection.listeners.ids.length + session.allowance

/-- What was done so far and what is still to be expected, if so many can be told of a notification at
most and an act can cost so much. -/
def load (most price : Nat) (session : Session μ) : Nat :=
  session.journal.length + most * session.projection.listeners.queue.length +
    price * session.allowance

/-- There are no more to be told than before, and what was done is made up for by what is not to be
expected any more, but for a certain cost. -/
structure Costs (most price cost : Nat) (before after : Session μ) : Prop where
  crowd : after.crowd ≤ before.crowd
  load : before.crowd ≤ most → after.load most price ≤ before.load most price + cost

namespace Costs

variable {most price cost cost' : Nat} {first second third : Session μ}

theorem of_same (journal : second.journal = first.journal)
    (ids : second.projection.listeners.ids = first.projection.listeners.ids)
    (queue : second.projection.listeners.queue = first.projection.listeners.queue)
    (allowance : second.allowance = first.allowance) : Costs most price cost first second := by
  refine ⟨?_, fun _ => ?_⟩
  · rw [Session.crowd, Session.crowd, ids, allowance]
  · rw [Session.load, Session.load, journal, queue, allowance]
    exact Nat.le_add_right _ _

theorem refl (session : Session μ) : Costs most price cost session session := of_same rfl rfl rfl rfl

theorem mono (costs : Costs most price cost first second) (cheaper : cost ≤ cost') :
    Costs most price cost' first second :=
  ⟨costs.crowd, fun enough => (costs.load enough).trans (Nat.add_le_add_left cheaper _)⟩

theorem trans (one : Costs most price cost first second)
    (other : Costs most price cost' second third) : Costs most price (cost + cost') first third := by
  refine ⟨other.crowd.trans one.crowd, fun enough => ?_⟩
  have sooner := one.load enough
  have later := other.load (one.crowd.trans enough)
  omega

/-- What nobody is told of costs nothing, when it comes first as well as when it comes last. -/
theorem begins (costs : Costs most price cost second third) (journal : second.journal = first.journal)
    (ids : second.projection.listeners.ids = first.projection.listeners.ids)
    (queue : second.projection.listeners.queue = first.projection.listeners.queue)
    (allowance : second.allowance = first.allowance) : Costs most price cost first third :=
  ((of_same journal ids queue allowance : Costs most price 0 first second).trans costs).mono
    (Nat.zero_add cost).le

theorem ends (costs : Costs most price cost first second) (journal : third.journal = second.journal)
    (ids : third.projection.listeners.ids = second.projection.listeners.ids)
    (queue : third.projection.listeners.queue = second.projection.listeners.queue)
    (allowance : third.allowance = second.allowance) : Costs most price cost first third :=
  costs.trans (of_same journal ids queue allowance : Costs most price 0 second third)

end Costs

end Session

/-- To tell the listeners costs no more than to hand one notification to each of them. -/
def Notifier.Frugal (notify : Notifier μ) (master : Master) (property : Projection → Prop)
    (most price : Nat) : Prop :=
  ∀ phase change (session : Session μ), property session.projection →
    session.Costs most price most (notify master phase change session)

namespace Session

variable {most price : Nat} {notify : Notifier μ} {master : Master} {session : Session μ}

theorem record_costs (session : Session μ) (entry : Entry) :
    session.Costs most price 1 (session.record entry) := by
  refine ⟨Nat.le_refl _, fun _ => ?_⟩
  simp only [load, record, List.length_append, List.length_singleton]
  omega

theorem enqueue_frugal (master : Master) (property : Projection → Prop) :
    (enqueue : Notifier μ).Frugal master property most price := by
  intro phase change session _
  unfold enqueue
  split
  · exact .refl session
  · refine ⟨Nat.le_refl _, fun _ => ?_⟩
    simp only [load, update, List.length_append, List.length_singleton, Nat.mul_add]
    omega

theorem breakOnFault_costs {cost : Nat} {outcome : Outcome (Session μ)}
    (costs : session.Costs most price cost outcome.state) :
    session.Costs most price cost (breakOnFault outcome).state := by
  unfold breakOnFault
  split
  · exact costs.ends rfl rfl rfl rfl
  · exact costs

theorem report_costs {property : Projection → Prop}
    (frugal : notify.Frugal master property most price) (holds : property session.projection)
    (change : Change) : session.Costs most price (most + 1) (session.report notify master change) :=
  ((record_costs session (.applied change)).trans (frugal .after change _ holds)).mono
    (Nat.add_comm 1 most).le

/-! Range changes -/

section
variable {sound rest : Projection → Prop} (maintains : notify.Maintains master sound rest)
  (frugal : notify.Frugal master sound most price) {planned : Planned}

include maintains frugal

theorem conclude_costs (holds : sound session.projection)
    (live : session.projection.disposed = false) :
    session.Costs most price (most + 1) (conclude notify master session).state := by
  unfold conclude
  split
  · exact .refl session
  · next planned found =>
    obtain ⟨layout, text, carried, after⟩ := maintains.carries _ planned holds live found
    simp only [within, carried, Outcome.map, Outcome.done, Outcome.andThen]
    have reported := report_costs frugal
      (maintains.sound_of_rest _ after : sound ({ session with projection := _ } : Session μ).projection)
      planned.change
    exact reported.begins rfl rfl rfl rfl

theorem undertake_costs (announced : sound { session.projection with planned := some planned }) :
    session.Costs most price (2 * most + 1) (undertake notify master session planned).state := by
  generalize planning :
    (session.update fun projection => { projection with planned := some planned }) = announcing
  have holds : sound announcing.projection := planning ▸ announced
  have told := maintains.keepsSound .before planned.change announcing holds
  have telling := frugal .before planned.change announcing holds
  have costs : announcing.Costs most price (2 * most + 1)
      (undertake notify master session planned).state := by
    simp only [undertake, planning]
    split
    · exact (telling.mono (by omega)).ends rfl rfl rfl rfl
    · next opened =>
      have concluded := conclude_costs maintains frugal told (Projection.usable_of_closed? opened).1
      exact (telling.trans concluded).mono (by omega)
  subst planning
  exact costs.begins rfl rfl rfl rfl

theorem attempt_costs {region gap : Region} {edit : Option Edit} {outcome : Outcome (Session μ)}
    (holds : rest session.projection)
    (hidden : session.projection.layout.firstHidden? region = some gap)
    (made : undertakePlan notify master session (session.projection.planFill master gap edit) =
      outcome) :
    session.Costs most price (2 * most + 1) outcome.state ∧
      (outcome.error = none → rest outcome.state.projection) := by
  subst made
  rcases maintains.planFill_cases holds hidden edit with ⟨planned, plan, announced⟩ | ⟨error, plan⟩
  · simp only [plan, undertakePlan]
    exact ⟨undertake_costs maintains frugal announced, (undertake_ends maintains announced).good⟩
  · simp only [plan, undertakePlan]
    exact ⟨.refl session, fun done => by cases done⟩

/-- Whatever the bound, no more rounds are paid for than the addition takes. -/
theorem FillsIn.costs {region : Region} {edit : Option Edit} {count : Nat}
    {outcome : Outcome (Session μ)} (fills : FillsIn notify master region edit count session outcome)
    (holds : rest session.projection) (limit rounds : Nat) :
    session.Costs most price (count * (2 * most + 1))
      (fillGaps notify master region edit limit rounds session).state := by
  induction fills generalizing rounds with
  | @shown session nothing =>
    cases rounds with
    | zero => exact .refl session
    | succ rounds =>
      simp only [fillGaps, nothing]
      exact .refl session
  | @fails session after gap error hidden failed =>
    cases rounds with
    | zero => exact .refl session
    | succ rounds =>
      simp only [fillGaps, hidden, failed, Outcome.fail_andThen, Nat.one_mul]
      exact (attempt_costs maintains frugal holds hidden failed).1
  | @round count session middle outcome gap hidden made others ih =>
    cases rounds with
    | zero => exact .refl session
    | succ rounds =>
      simp only [fillGaps, hidden, made, Outcome.done_andThen]
      obtain ⟨costs, after⟩ := attempt_costs maintains frugal holds hidden made
      rw [Nat.succ_mul, Nat.add_comm]
      exact costs.trans (ih (after rfl) rounds)

section
variable (paid : notify.Paid master) {region : Region}

include paid

theorem changeRanges_costs {operation : Session μ → Outcome (Session μ)} {cost : Nat}
    (holds : sound session.projection)
    (costs : ∀ middle : Session μ, rest middle.projection → middle.allowance ≤ session.allowance →
      region.Inside master.length → middle.Costs most price cost (operation middle).state) :
    session.Costs most price (most + 1 + cost)
      (changeRanges notify master region session operation).state := by
  unfold changeRanges
  cases refuses : session.projection.refuses?.or (master.outside? region) with
  | some error => exact .refl session
  | none =>
    obtain ⟨usable, inside⟩ := Option.or_eq_none_iff.mp refuses
    have live := (Projection.usable_of_refuses? usable).1
    have concluded := conclude_costs maintains frugal holds live
    have left : (conclude notify master session).state.allowance ≤ session.allowance :=
      conclude_allowance_le paid
    have ends := conclude_ends maintains holds live
    refine breakOnFault_costs ?_
    generalize conclude notify master session = outcome at concluded left ends
    obtain ⟨middle, error⟩ := outcome
    cases error with
    | some error => exact concluded.mono (Nat.le_add_right _ _)
    | none =>
      exact concluded.trans (costs middle (ends.good rfl) left (Region.outside?_eq_none_iff.mp inside))

theorem request_costs {rounds : Nat} (positive : 0 < rounds) (holds : sound session.projection)
    (fills : ∀ (middle : Session μ) region, rest middle.projection →
      middle.allowance ≤ session.allowance → region.Inside master.length →
      ∃ count outcome, FillsIn notify master region none count middle outcome ∧ count ≤ rounds)
    {request : Request} (ranges : request.Ranges) :
    session.Costs most price ((rounds + 1) * (2 * most + 1))
      (session.request notify master request).1 := by
  have once : 2 * most + 1 ≤ rounds * (2 * most + 1) := Nat.le_mul_of_pos_left _ positive
  have enough : most + 1 + rounds * (2 * most + 1) ≤ (rounds + 1) * (2 * most + 1) := by
    rw [Nat.succ_mul rounds]
    omega
  cases request with
  | add region =>
    refine (changeRanges_costs maintains frugal paid holds fun middle after left inside => ?_).mono
      enough
    obtain ⟨count, outcome, filled, few⟩ := fills middle region after left inside
    exact (filled.costs maintains frugal after _ _).mono (Nat.mul_le_mul_right _ few)
  | remove region =>
    refine (changeRanges_costs maintains frugal paid holds fun middle after _ inside => ?_).mono enough
    split
    · exact .refl middle
    · next solid =>
      have nonempty : 0 < region.length := by
        simpa [Region.isEmpty, Nat.pos_iff_ne_zero] using solid
      rcases maintains.removes _ region after nonempty inside with ⟨planned, plan, announced⟩ | plan
      · simp only [plan, undertakePlan]
        exact (undertake_costs maintains frugal announced).mono once
      · simp only [plan, undertakePlan]
        exact .refl middle
  | reset region =>
    refine (changeRanges_costs maintains frugal paid holds fun middle after _ inside => ?_).mono enough
    obtain ⟨planned, plan, announced⟩ := maintains.resets _ region after inside
    simp only [plan, undertakePlan]
    exact (undertake_costs maintains frugal announced).mono once
  | setAutoExpand _ | subscribe | unsubscribe _ | dispose => exact ranges.elim

end

end

/-! Deliveries -/

theorem coupling_allowance (allowance : Nat) : Coupling (enqueue : Notifier μ) enqueue
    fun left right => left = right ∧ left.allowance = allowance :=
  .of_same (fun _ _ same _ => same) (fun _ _ same => same) (fun _ _ same => same)
    fun master phase change session same => ⟨rfl, by rw [enqueue_eq]; exact same⟩

theorem request_enqueue_allowance (master : Master) (session : Session μ) (request : Request) :
    (session.request enqueue master request).1.allowance = session.allowance := by
  by_cases ranges : request.Ranges
  · have coupling : Coupling (enqueue : Notifier μ) enqueue _ := coupling_allowance session.allowance
    have pairing := coupling.pairing master
    rcases request_both pairing ranges rfl (conclude_both pairing ⟨rfl, rfl⟩) with
      ⟨error, refused, -⟩ | ⟨⟨-, same⟩, -⟩
    · rw [refused]
    · exact same
  · cases request with
    | add _ | remove _ | reset _ => exact absurd trivial ranges
    | setAutoExpand _ | subscribe | unsubscribe _ | dispose => rfl

theorem listeners_of_casual {request : Request} (casual : ¬ request.Ranges) :
    let after := (session.request notify master request).1.projection.listeners
    after.ids.length ≤ session.projection.listeners.ids.length + 1 ∧
      after.queue.length ≤ session.projection.listeners.queue.length := by
  cases request with
  | add _ | remove _ | reset _ => exact absurd trivial casual
  | setAutoExpand on => exact ⟨Nat.le_succ _, Nat.le_refl _⟩
  | subscribe => exact ⟨(List.length_append).le, Nat.le_refl _⟩
  | unsubscribe listener => exact ⟨(List.length_filter_le _ _).trans (Nat.le_succ _), Nat.le_refl _⟩
  | dispose =>
    simp only [request, update, Projection.dispose]
    split
    · exact ⟨Nat.le_succ _, Nat.le_refl _⟩
    · exact ⟨Nat.zero_le _, Nat.zero_le _⟩

/-- What an act may cost is made up for by the act that there is less to come. -/
theorem costs_of_request {request : Request}
    (costs : request.Ranges →
      session.Costs most price price (session.request enqueue master request).1)
    {allowance : Nat} (enough : session.allowance = allowance + 1) :
    session.Costs most price 0
      { (session.request enqueue master request).1 with allowance } := by
  have kept := request_enqueue_allowance master session request
  by_cases ranges : request.Ranges
  · obtain ⟨crowd, load⟩ := costs ranges
    generalize (session.request enqueue master request).1 = after at crowd load kept
    refine ⟨?_, fun few => ?_⟩
    · simp only [Session.crowd] at crowd ⊢
      omega
    · have paid := load few
      simp only [Session.load, kept, enough, Nat.mul_succ] at paid ⊢
      omega
  · obtain ⟨journal, -⟩ : (session.request enqueue master request).1.journal = session.journal ∧ _ :=
      request_of_casual ranges
    obtain ⟨ids, queue⟩ : (session.request enqueue master request).1.projection.listeners.ids.length ≤
        session.projection.listeners.ids.length + 1 ∧ _ := listeners_of_casual ranges
    generalize (session.request enqueue master request).1 = after at journal ids queue kept
    refine ⟨?_, fun _ => ?_⟩
    · simp only [Session.crowd]
      omega
    · have shorter := Nat.mul_le_mul_left most queue
      simp only [Session.load, journal, enough, Nat.mul_succ]
      omega

section
variable {audience : Audience μ} {property : Projection → Prop}
  (requests : audience.Requests)
  (kept : ∀ (session : Session μ) (request : Request), property session.projection →
    property (session.request enqueue master request).1.projection)
  (costs : ∀ (session : Session μ) (request : Request), property session.projection →
    request.Ranges → session.Costs most price price (session.request enqueue master request).1)

include requests kept costs

theorem perform_costs (delivery : Delivery) (holds : property session.projection) :
    session.Costs most price 0 (perform master (audience session.memory delivery) session) := by
  generalize reacts : audience session.memory delivery = reaction
  have requests : reaction.Requests := reacts ▸ requests session.memory delivery
  clear reacts
  induction requests generalizing session with
  | rest memory => exact .of_same rfl rfl rfl rfl
  | act request next _ ih =>
    rw [perform_act]
    split
    · exact .refl session
    · next allowance enough =>
      exact (costs_of_request (costs session request holds) enough).trans
        (ih _ _ (kept session request holds))

theorem deliver_costs (notification : Notification) (holds : property session.projection) :
    session.Costs most price session.projection.listeners.ids.length
      (deliver audience master notification session) := by
  unfold deliver
  generalize session.projection.listeners.ids = ids
  induction ids generalizing session with
  | nil => exact .refl session
  | cons listener others ih =>
    have told : session.Costs most price 1
        (deliverTo audience master notification session listener) := by
      unfold deliverTo
      split
      · exact (record_costs session _).trans (perform_costs requests kept costs _ holds)
      · exact .refl session
    have still : property (deliverTo audience master notification session listener).projection := by
      unfold deliverTo
      split
      · have recorded (entry : Entry) : property (session.record entry).projection := holds
        exact perform_keeps requests kept _ (recorded _)
      · exact holds
    exact (told.trans (ih still)).mono (Nat.add_comm _ _).le

theorem deliverNext_costs (free : ∀ projection listeners, property projection →
      property { projection with listeners := listeners })
    (holds : property session.projection) :
    session.Costs most price 0 (deliverNext audience master session) := by
  unfold deliverNext
  split
  · exact .refl session
  · next notification others waiting =>
    have taken : property (session.update fun projection =>
        { projection with listeners.queue := others }).projection := free _ _ holds
    have delivered := deliver_costs requests kept costs notification taken
    have room : (session.update fun projection =>
        { projection with listeners.queue := others }).load most price + most =
          session.load most price := by
      simp only [Session.load, update, waiting, List.length_cons, Nat.mul_succ]
      omega
    refine ⟨delivered.crowd, fun few => ?_⟩
    -- The place in the queue was worth a delivery to each listener.
    have listening : session.projection.listeners.ids.length ≤ most :=
      (Nat.le_add_right _ _).trans few
    have load := (delivered.load few).trans (Nat.add_le_add_left listening _)
    rwa [room] at load

variable (free : ∀ projection listeners, property projection →
  property { projection with listeners := listeners })

include free

theorem deliverMany_costs (count : Nat) (holds : property session.projection) :
    session.Costs most price 0 (deliverMany audience master count session) := by
  induction count generalizing session with
  | zero => exact .refl session
  | succ count ih =>
    have next : property (deliverNext audience master session).projection :=
      deliverMany_keeps free (fun _ delivery _ _ => perform_keeps requests kept delivery) 1 holds
    exact (deliverNext_costs requests kept costs free holds).trans (ih next)

theorem drain_costs (rounds : Nat) (holds : property session.projection) :
    session.Costs most price 0 (drain audience master rounds session) := by
  induction rounds generalizing session with
  | zero => exact .refl session
  | succ rounds ih =>
    unfold drain
    split
    · exact .refl session
    · have told := deliverMany_keeps free
        (fun _ delivery _ _ => perform_keeps requests kept delivery)
        session.projection.listeners.queue.length holds
      exact (deliverMany_costs requests kept costs free _ holds).trans (ih told)

theorem publish_frugal : (publish audience).Frugal master property most price := by
  intro phase change session holds
  have waiting : session.Costs most price most (enqueue master phase change session) :=
    enqueue_frugal master property phase change session holds
  have still : property ((enqueue master phase change session).setDispatching true).projection :=
    free _ _ (enqueue_keeps free phase change session holds)
  unfold publish
  split
  · exact waiting
  · have started : session.Costs most price most
        ((enqueue master phase change session).setDispatching true) := waiting.ends rfl rfl rfl rfl
    exact (started.trans (drain_costs requests kept costs free _ still)).ends rfl rfl rfl rfl

end

/-! Acts -/

/-- What an act of a listener costs at most while a text of so many characters is projected. -/
def fee (size most : Nat) : Nat := (size + 2) * (2 * most + 1)

section
variable {outgoing : Outgoing} {size : Nat} (fits : master.length < Offset.bound)
  (small : master.length ≤ size)

include fits small

/-- An addition that is only queued fills each gap once. -/
theorem exists_fillsIn_enqueue {region : Region} (inside : region.Inside master.length)
    (sound : session.SoundIdle master.text outgoing) (edit : Option Edit) :
    ∃ count outcome, FillsIn enqueue master region edit count session outcome ∧ count ≤ size + 1 := by
  obtain ⟨count, outcome, fills, enough⟩ := exists_fillsIn (enqueue_paid master) fits inside
    (enqueue_maintains Projection.upkeep_sound) sound edit
  have same : outcome.state.allowance = session.allowance := by
    rw [← fills.fillGaps_eq 0 (Nat.le_refl count)]
    exact (fillGaps_both ((coupling_allowance session.allowance).pairing master) edit 0 count
      ⟨rfl, rfl⟩).state.2
  have few := length_hidden_le fits inside sound
  have within : region.offset + region.length ≤ master.length := Region.inside_iff.mp inside
  refine ⟨count, outcome, fills, ?_⟩
  rw [same, work] at enough
  omega

theorem publish_frugal_sound {audience : Audience μ} (requests : audience.Requests) :
    (publish audience).Frugal master (Projection.Sound master.text outgoing) most (fee size most) := by
  have upkeep : Projection.Upkeep master (Projection.Sound master.text outgoing)
      (Projection.SoundIdle master.text outgoing) := Projection.upkeep_sound
  refine publish_frugal requests (fun session request sound => ?_)
    (fun session request sound ranges => ?_) upkeep.sound_casual.audience
  · exact (request_spec (enqueue_maintains upkeep) upkeep.sound_of_rest (fun _ sound => sound)
      upkeep.sound_casual sound request).1
  · exact request_costs (enqueue_maintains upkeep) (enqueue_frugal master _) (enqueue_paid master)
      (Nat.succ_pos size) sound
      (fun middle region rest _ inside => exists_fillsIn_enqueue fits small inside rest none) ranges

end

theorem publish_frugal_held {audience : Audience μ} (requests : audience.Requests)
    {before : Projection} (pending : before.pending.isSome = true) :
    (publish audience).Frugal master before.Held most price := by
  refine publish_frugal requests (request_keeps_held pending) (fun session request held ranges => ?_)
    Projection.casual_held.audience
  obtain ⟨error, refuses⟩ := held.refuses pending
  rw [request_of_refused refuses ranges]
  exact .refl session

end Session

end TextProjection
