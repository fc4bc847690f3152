import TextProjection.Proofs.Session.Publish
import TextProjection.Proofs.Session.Trailing

/-! A range change that a listener makes while it is told of another one is serialized after that one.
It makes no difference whether the listener is told that the change is going to be made or that it was
made, or whether the listener waits for all to be over.
-/

set_option autoImplicit false

namespace TextProjection

variable {μ ν : Type}

def Audience.noting (note : μ → Delivery → μ) : Audience μ := fun memory delivery =>
  .rest (note memory delivery)

theorem Audience.noting_passive (note : μ → Delivery → μ) : (noting note).Passive :=
  fun session delivery _ => ⟨note session.memory delivery, session.allowance, rfl⟩

/-- Listeners that note what they are told, but one of them makes requests when it is told something
in a phase for the first time, and remembers the replies. -/
def Audience.acting (note : μ → Delivery → μ) (actor : Nat) (phase : Phase)
    (requests : List Request) : Audience (μ × Option (List Reply)) := fun memory delivery =>
  if memory.2.isNone ∧ delivery.listener = actor ∧ delivery.notification.phase = phase then
    .making (fun replies => .rest (note memory.1 delivery, some replies)) requests
  else .rest (note memory.1 delivery, memory.2)

section
variable (note : μ → Delivery → μ) (actor : Nat) (phase : Phase) (requests : List Request)

theorem Audience.acting_waits : (acting note actor phase requests).LooksOn
    (fun listener notification => ¬ (listener = actor ∧ notification.phase = phase))
    fun memory allowance => memory.2 = none ∧ requests.length ≤ allowance := by
  rintro session delivery - other still
  refine ⟨(note session.memory.1 delivery, session.memory.2), session.allowance, still, ?_⟩
  rw [acting, if_neg fun acts => other acts.2]
  rfl

theorem Audience.acting_acted (replies : List Reply) : (acting note actor phase requests).LooksOn
    (fun _ _ => True) fun memory _ => memory.2 = some replies := by
  rintro session delivery - - acted
  refine ⟨(note session.memory.1 delivery, session.memory.2), session.allowance, acted, ?_⟩
  rw [acting, if_neg (by simp [acted])]
  rfl

end

/-- The request comes down to one range change: it hides something that is shown throughout, shows one
region and nothing else, or shows a region of which just one part is hidden. -/
inductive Projection.Single (projection : Projection) (master : Text) : Request → Prop
  | remove {region : Region} (nonempty : 0 < region.length)
      (shown : ∀ position, region.Covers position → projection.layout.Shows position) :
      Single projection master (.remove region)
  | reset {region : Region} (inside : region.Inside master.length) :
      Single projection master (.reset region)
  | add {region gap : Region} (inside : region.Inside master.length)
      (hidden : projection.layout.hidden region = [gap]) : Single projection master (.add region)

def Request.Granted (layout : Layout) : Request → Prop
  | .add region => ∀ position, region.Covers position → layout.Shows position
  | _ => True

namespace Session

variable {notify : Notifier ν} {master : Master} {ids : List Nat}
  {told due : List (Nat × Notification)} {lag : Option Planned} {actor : Nat} {phase : Phase}
  {requests : List Request}

/-- All that was waiting to be told was told since. -/
structure Drains (busy after : Session μ) : Prop where
  projection : after.projection = { busy.projection with
    listeners.queue := [], listeners.dispatching := false }
  notices : after.notices = busy.notices ++ busy.projection.listeners.queue.flatMap
    fun notification => busy.projection.listeners.ids.map (·, notification)

/-- A session in which a listener made requests comes to what comes of the session in which they were
made afterwards. -/
structure Meets (nested : Session (μ × Option (List Reply))) (last : Session ν × List Reply) :
    Prop where
  projection : nested.projection = last.1.projection
  notices : nested.notices = last.1.notices
  replies : nested.memory.2 = some last.2

section
variable {session : Session (μ × Option (List Reply))} {still : Session ν}
  (informs : notify.Informs) (ranges : ∀ request ∈ requests, request.Ranges)
  (untold : session.memory.2 = none) (enough : requests.length ≤ session.allowance)
  (present : actor ∈ ids)

include informs ranges untold enough present

theorem deliver_acts (pair : Due master.text lag ids told due session still)
    (note : μ → Delivery → μ) (change : Change) :
    let after := deliver (.acting note actor phase requests) master ⟨phase, change⟩ session
    Due master.text lag ids (told ++ ids.map (·, ⟨phase, change⟩)) due after
        (still.requests notify master requests).1 ∧
      after.memory.2 = some (still.requests notify master requests).2 := by
  obtain ⟨front, back, rfl, earlier⟩ := List.eq_append_cons_of_mem present
  have all : ∀ listener ∈ front ++ actor :: back, listener ∈ session.projection.listeners.ids :=
    fun _ member => pair.ids_eq ▸ member
  obtain ⟨inFront, here, inBack⟩ : _ ∧ _ ∧ _ := by
    simpa only [List.forall_mem_append, List.forall_mem_cons] using all
  -- Those before the actor look on.
  obtain ⟨projection, notices, none, enough'⟩ := deliverAll_informs master
    (Audience.acting_waits note actor phase requests) ⟨phase, change⟩ inFront
    (fun listener member acts => earlier (acts.1 ▸ member)) ⟨untold, enough⟩
  generalize earlierOnes :
    front.foldl (deliverTo (.acting note actor phase requests) master ⟨phase, change⟩) session =
      middle at projection notices none enough'
  -- The actor makes its requests.
  let delivery : Delivery := ⟨actor, ⟨phase, change⟩, master, middle.projection⟩
  have heard : (middle.record (.delivered delivery)).notices =
      told ++ front.map (·, ⟨phase, change⟩) ++ [(actor, ⟨phase, change⟩)] := by
    rw [← pair.tells.notices, ← notices]
    simp [Session.notices, record, Entry.notice?, delivery]
  have spare : requests.length ≤ (middle.record (.delivered delivery)).allowance := enough'
  obtain ⟨after, performed, pairAfter⟩ := perform_making informs ranges
    (fun replies => .rest (note middle.memory.1 delivery, some replies)) spare
    (pair.congr (middle.record (.delivered delivery)) projection heard)
  have acts : deliverTo (.acting note actor phase requests) master ⟨phase, change⟩ middle actor =
      { after with memory := (note middle.memory.1 delivery,
        some (still.requests notify master requests).2) } := by
    rw [deliverTo, if_pos (projection ▸ here)]
    change perform master (Audience.acting note actor phase requests middle.memory delivery) _ = _
    rw [Audience.acting, if_pos ⟨by simp [none], rfl, rfl⟩]
    exact performed
  rw [deliver, pair.ids_eq, List.foldl_append, List.foldl_cons, earlierOnes, acts]
  generalize made : ({ after with memory := _ } : Session (μ × Option (List Reply))) = acted
  have projected : acted.projection = after.projection := by rw [← made]
  have told' : acted.notices = after.notices := by rw [← made]; rfl
  have replied : acted.memory.2 = some (still.requests notify master requests).2 := by rw [← made]
  -- Those after the actor look on, too.
  have inBack' : ∀ listener ∈ back, listener ∈ acted.projection.listeners.ids := by
    rw [projected, pairAfter.ids_eq, ← pair.ids_eq]
    exact inBack
  obtain ⟨projection', notices', remembered⟩ := deliverAll_informs master
    (Audience.acting_acted note actor phase requests (still.requests notify master requests).2)
    ⟨phase, change⟩ inBack' (fun _ _ => trivial) replied
  refine ⟨pairAfter.congr _ (projection'.trans projected) ?_, remembered⟩
  rw [notices', told', pairAfter.tells.notices]
  simp

theorem publish_acts (drained : session.projection.listeners.Drained)
    (pair : Due master.text lag ids session.notices due (session.setDispatching true) still)
    (note : μ → Delivery → μ) (change : Change) :
    let after := publish (.acting note actor phase requests) master phase change session
    ∃ busy : Session (μ × Option (List Reply)),
      Due master.text lag ids (session.notices ++ ids.map (·, ⟨phase, change⟩)) due busy
        (still.requests notify master requests).1 ∧
      busy.Drains after ∧ after.memory.2 = some (still.requests notify master requests).2 := by
  have somebody : session.projection.listeners.ids ≠ [] := by
    have same : session.projection.listeners.ids = ids := pair.ids_eq
    rw [same]
    exact List.ne_nil_of_mem present
  let taken := session.update fun projection => { projection with
    listeners.queue := [], listeners.dispatching := true }
  have unmoved : taken.projection = (session.setDispatching true).projection := by
    simp [taken, update, setDispatching, drained.1]
  have untold' : taken.memory.2 = none := untold
  have enough' : requests.length ≤ taken.allowance := enough
  obtain ⟨pairActed, replied⟩ := deliver_acts informs ranges untold' enough' present
    (pair.congr taken unmoved rfl) note change
  have spent := deliver_spends (.acting note actor phase requests) master ⟨phase, change⟩ taken
  have round : drain (.acting note actor phase requests) master (session.allowance + 1)
      (session.update fun projection => { projection with
        listeners.queue := [⟨phase, change⟩], listeners.dispatching := true }) =
      drain (.acting note actor phase requests) master session.allowance
        (deliver (.acting note actor phase requests) master ⟨phase, change⟩ taken) := by
    simp [drain, update, deliverMany, deliverNext, taken]
  rw [publish_of_drained drained somebody, round]
  generalize deliver (.acting note actor phase requests) master ⟨phase, change⟩ taken = busy
    at pairActed replied spent
  -- If there is anything more to tell, then an act was spent on it, so that there is another round.
  have rounds : busy.projection.listeners.queue = [] ∨ 0 < session.allowance := by
    rcases spent with less | ⟨-, queue⟩
    · exact .inr (Nat.zero_lt_of_lt less)
    · exact .inl queue
  obtain ⟨projection, notices, remembered⟩ := drain_informs master
    (Audience.acting_acted note actor phase requests (still.requests notify master requests).2)
    (fun _ _ _ => trivial) replied rounds
  refine ⟨busy, pairActed, ⟨?_, notices⟩, remembered⟩
  simp only [setDispatching, update, projection]

end

section
variable {busy after : Session (μ × Option (List Reply))} {last : Session ν × List Reply}
  {planned : Planned} {told : List (Nat × Notification)}

theorem Trails.meets (trails : Trails ids told told busy last.1) (drains : busy.Drains after)
    (replied : after.memory.2 = some last.2) : after.Meets last where
  projection := drains.projection.trans trails.same.symm
  notices := by rw [drains.notices, trails.notices, trails.ids_eq, trails.delivered]
  replies := replied

theorem Lags.meets (lags : Lags master.text planned ids told told busy last.1)
    (drains : busy.Drains after) (replied : after.memory.2 = some last.2)
    (note : μ → Delivery → μ) (actor : Nat) (phase : Phase) (requests : List Request) :
    ∃ made, conclude (publish (.acting note actor phase requests)) master after = .done made ∧
      made.Meets last := by
  obtain ⟨layout, carries, same⟩ := lags.made
  have planned' : after.projection.planned = some planned := by
    rw [drains.projection]
    exact lags.announced
  have carries' : { after.projection with planned := none }.Carries master.text planned layout := by
    rw [drains.projection]
    exact carries.free _
  rw [conclude_of_carries planned' carries']
  generalize noted : Session.record { after with projection := { after.projection with
    planned := none, layout := layout, text := layout.textUnder master.text } }
      (.applied planned.change) = reported
  have projected : reported.projection = last.1.projection := by
    rw [← noted, same, record, drains.projection]
  have kept : reported.notices = told := by
    rw [← noted, notices_record_applied]
    change after.notices = told
    simp [drains.notices, lags.notices, lags.queue_eq]
  have remembered : reported.memory.2 = some last.2 := by
    rw [← noted]
    exact replied
  have drained : reported.projection.listeners.Drained := by
    rw [projected, same]
    exact ⟨rfl, rfl⟩
  obtain ⟨projection, notices, replied'⟩ := publish_looks master
    (Audience.acting_acted note actor phase requests last.2) .after planned.change drained
    (fun _ => trivial) remembered
  refine ⟨_, rfl, ?_⟩
  rw [report, noted]
  refine ⟨projection.trans projected, ?_, replied'⟩
  have subscribed : reported.projection.listeners.ids = ids := by
    rw [projected, same]
    exact lags.ids_eq
  rw [notices, kept, subscribed, lags.delivered]

end

section
variable {session : Session (μ × Option (List Reply))} {still : Session ν} {planned : Planned}
  {layout : Layout}
  (informs : notify.Informs) (spares : notify.Spares master)
  (ranges : ∀ request ∈ requests, request.Ranges)
  (usualIdle : session.UsualIdle master.text) (untold : session.memory.2 = none)
  (enough : requests.length ≤ session.allowance) (present : actor ∈ session.projection.listeners.ids)
  (carries : session.projection.Carries master.text planned layout)
  (usualIdle' : still.UsualIdle master.text)
  (made : still.projection =
    { session.projection with layout, text := layout.textUnder master.text })
  (notices : still.notices = session.notices ++ session.tidings planned.change)

include informs ranges usualIdle untold enough present carries usualIdle' made notices

include spares in
/-- A range change on whose announcement a listener makes requests is made before them. -/
theorem undertake_before (note : μ → Delivery → μ) :
    ∃ after, undertake (publish (.acting note actor .before requests)) master session planned =
        .done after ∧
      after.Meets (still.requests notify master requests) := by
  let announced := session.update fun projection => { projection with planned := some planned }
  have usualIdleLast : (still.requests notify master requests).1.UsualIdle master.text :=
    usualIdle_requests informs spares usualIdle' ranges
  have untold' : announced.memory.2 = none := untold
  have enough' : requests.length ≤ announced.allowance := enough
  have drained : announced.projection.listeners.Drained := usualIdle.drained
  have due : Due master.text (some planned) session.projection.listeners.ids announced.notices
      (session.notices ++ session.projection.listeners.ids.map (·, ⟨.before, planned.change⟩))
      (announced.setDispatching true) still := .inr ⟨planned, rfl, {
    dispatching := rfl
    notices := rfl
    ids_eq := rfl
    queue_eq := usualIdle.drained.1
    announced := rfl
    made := by
      rw [← usualIdle.rested] at made
      refine ⟨layout, ?_, made⟩
      change Projection.Carries { session.projection with
        planned := none, listeners.dispatching := true } master.text planned layout
      rw [← usualIdle.sound.idle]
      exact carries.free { session.projection.listeners with dispatching := true }
    delivered := by rw [notices, tidings, List.append_assoc] }⟩
  obtain ⟨busy, pair, drains, replied⟩ := publish_acts informs ranges untold' enough'
    present drained due note planned.change
  generalize heard : publish (.acting note actor .before requests) master .before planned.change
    announced = after at drains replied
  generalize still.requests notify master requests = last at usualIdleLast pair replied
  have opened : after.projection.closed? = none := by
    rw [drains.projection, ← usualIdleLast.closed?]
    exact pair.closed?
  rw [undertake_of_open heard opened]
  rcases pair with trails | ⟨_, found, lags⟩
  · -- The first request that was not refused made the announced change.
    have meets : after.Meets last := trails.meets drains replied
    have idle : after.projection.planned = none := meets.projection ▸ usualIdleLast.sound.idle
    exact ⟨after, conclude_of_idle idle, meets⟩
  · obtain rfl := Option.some.inj found
    exact lags.meets drains replied note actor .before requests

/-- A range change was made before the requests that a listener makes on being told of it. -/
theorem undertake_after (note : μ → Delivery → μ) :
    ∃ after, undertake (publish (.acting note actor .after requests)) master session planned =
        .done after ∧
      after.Meets (still.requests notify master requests) := by
  let announced := session.update fun projection => { projection with planned := some planned }
  have waits : announced.memory.2 = none ∧ requests.length ≤ announced.allowance := ⟨untold, enough⟩
  have drained : announced.projection.listeners.Drained := usualIdle.drained
  -- Nobody acts on the announcement.
  obtain ⟨projection, told, untold', enough'⟩ := publish_looks master
    (Audience.acting_waits note actor .after requests) .before planned.change drained
    (fun _ acts => nomatch acts.2) waits
  generalize heard : publish (.acting note actor .after requests) master .before planned.change
    announced = middle at projection told untold' enough'
  have opened : middle.projection.closed? = none := by
    rw [projection]
    exact usualIdle.closed?
  have planned' : middle.projection.planned = some planned := by
    rw [projection]
    rfl
  have carries' : { middle.projection with planned := none }.Carries master.text planned layout := by
    rw [projection]
    change Projection.Carries { session.projection with planned := none } master.text planned layout
    rw [← usualIdle.sound.idle]
    exact carries
  rw [undertake_of_open heard opened, conclude_of_carries planned' carries', report]
  generalize noted : Session.record { middle with projection := { middle.projection with
    planned := none, layout := layout, text := layout.textUnder master.text } }
      (.applied planned.change) = reported
  have projected : reported.projection = still.projection := by
    rw [← noted, made, record, projection, ← usualIdle.sound.idle]
    rfl
  have kept : reported.notices =
      session.notices ++ session.projection.listeners.ids.map (·, ⟨.before, planned.change⟩) := by
    rw [← noted, notices_record_applied]
    exact told
  have untold'' : reported.memory.2 = none := by
    rw [← noted]
    exact untold'
  have enough'' : requests.length ≤ reported.allowance := by
    rw [← noted]
    exact enough'
  have drained' : reported.projection.listeners.Drained := projected ▸ usualIdle'.drained
  have subscribed : reported.projection.listeners.ids = session.projection.listeners.ids := by
    rw [projected, made]
  have due : Due master.text none session.projection.listeners.ids reported.notices
      (reported.notices ++ session.projection.listeners.ids.map (·, ⟨.after, planned.change⟩))
      (reported.setDispatching true) still := .inl {
    dispatching := rfl
    notices := rfl
    ids_eq := subscribed
    same := by
      rw [← projected]
      exact congrArg (fun listeners => { reported.projection with listeners }) drained'.ends.symm
    delivered := by
      change still.notices = _ ++ reported.projection.listeners.queue.flatMap _
      rw [drained'.1, kept, notices, tidings, List.flatMap_nil, List.append_nil, List.append_assoc] }
  obtain ⟨busy, pair, drains, replied⟩ := publish_acts informs ranges untold'' enough'' present
    drained' due note planned.change
  refine ⟨_, rfl, ?_⟩
  rcases pair with trails | ⟨_, found, -⟩
  · exact trails.meets drains replied
  · cases found

end

/-- The request is over when the one range change is made, unless there is still something to show. -/
theorem UsualIdle.exists_undertaken {session : Session μ} {request : Request}
    (fits : master.length < Offset.bound) (usualIdle : session.UsualIdle master.text)
    (single : session.projection.Single master.text request) :
    request.Ranges ∧ ∃ planned layout, session.projection.Carries master.text planned layout ∧
      request.Granted layout ∧ ∀ (notify : Notifier μ) (after : Session μ),
        undertake notify master session planned = .done after →
        after.projection.WellFormed master.text → request.Granted after.projection.layout →
        session.request notify master request = (after, .ok .done) := by
  have wf := usualIdle.sound.wellFormed
  refine ⟨by cases single <;> trivial, ?_⟩
  cases single with
  | @remove region nonempty shown =>
    obtain ⟨inside, planned, plan, current⟩ := wf.exists_planRemoval fits nonempty shown
    obtain ⟨layout, carries⟩ := wf.exists_carries current
    refine ⟨planned, layout, carries, trivial, fun notify after undertaken _ _ => ?_⟩
    have solid : region.isEmpty = false := by
      simpa [Region.isEmpty] using Nat.ne_of_gt nonempty
    simp only [Session.request, Session.remove, usualIdle.changeRanges_eq inside, solid,
      Bool.false_eq_true, if_false, plan, undertakePlan, undertaken]
    rfl
  | @reset region inside =>
    obtain ⟨planned, plan, current⟩ := wf.exists_planReset inside
    obtain ⟨layout, carries⟩ := wf.exists_carries current
    refine ⟨planned, layout, carries, trivial, fun notify after undertaken _ _ => ?_⟩
    simp only [Session.request, Session.reset, usualIdle.changeRanges_eq inside, plan, undertakePlan,
      undertaken]
    rfl
  | @add region gap inside hidden =>
    have within : region.stop ≤ master.length := Region.inside_iff.mp inside
    have word : region.stop < Offset.bound := Nat.lt_of_le_of_lt within fits
    rcases wf.layout.hidden_cases region with
      ⟨none, -⟩ | ⟨gap', others, found, nonempty, start, stop, unshown⟩
    · cases none.symm.trans hidden
    · obtain ⟨rfl, rfl⟩ := List.cons.inj (found.symm.trans hidden)
      obtain ⟨planned, plan, current, fills, origin, -⟩ :=
        wf.exists_planFill ⟨nonempty, Nat.le_trans stop within, unshown⟩ none
      obtain ⟨layout, carries⟩ := wf.exists_carries current
      have shows (position : Nat) : layout.Shows position ↔
          session.projection.layout.Shows position ∨ gap'.Covers position := by
        rw [carries.shows, Planned.shows_of_fills fills, origin]
      have shown : Request.Granted layout (.add region) := by
        rcases carries.wellFormed.hidden_cases region with ⟨-, shown⟩ | ⟨_, _, more, -⟩
        · exact shown word
        · cases more.symm.trans
            (wf.layout.hidden_tail carries.wellFormed word found shows)
      refine ⟨planned, layout, carries, shown, fun notify after undertaken wfAfter granted => ?_⟩
      have nothing : after.projection.layout.hidden region = [] :=
        wfAfter.layout.hidden_of_shown granted
      -- There is a round for the one change, and another one in which nothing is found to be hidden.
      obtain ⟨rounds, limit⟩ : ∃ rounds, session.projection.options.bound.limit
          session.projection.layout.size = rounds + 1 := by
        have few := wf.layout.length_hidden_le_limit word
        rw [← usualIdle.usual, found] at few
        exact Nat.exists_eq_add_one.mpr few
      have filled : fill notify master region none session = .done after := by
        simp only [fill, limit, fillGaps, Layout.firstHidden?, found, List.head?_cons, plan,
          undertakePlan, undertaken, Outcome.done_andThen, nothing, List.head?_nil]
      simp only [Session.request, Session.add, usualIdle.changeRanges_eq inside, filled]
      rfl

/-- What a listener requests while it is told of a range change comes after that change. It makes no
difference whether the listener is told before the change is made or afterwards, or whether the requests
are made when all that is over. -/
theorem request_serial {session : Session (μ × Option (List Reply))}
    {audience : Audience (μ × Option (List Reply))} (passive : audience.Passive)
    (note : μ → Delivery → μ) {request : Request} (fits : master.length < Offset.bound)
    (usualIdle : session.UsualIdle master.text)
    (single : session.projection.Single master.text request)
    (ranges : ∀ request ∈ requests, request.Ranges)
    (untold : session.memory.2 = none) (enough : requests.length ≤ session.allowance)
    (present : actor ∈ session.projection.listeners.ids) :
    let first := session.request (publish audience) master request
    let last := first.1.requests (publish audience) master requests
    request.Granted last.1.projection.layout → first.2 = .ok .done ∧ ∀ phase,
      let nested := session.request (publish (.acting note actor phase requests)) master request
      nested.2 = first.2 ∧ nested.1.Meets last := by
  intro first last granted
  have informs := publish_informs passive
  have spares : (publish audience).Spares master := publish_spares passive
  obtain ⟨isRange, planned, layout, carries, shown, replies⟩ := usualIdle.exists_undertaken fits single
  obtain ⟨still, undertaken, made, notices⟩ :=
    undertake_informs informs usualIdle.drained usualIdle.sound usualIdle.live carries
  have requested : first = (still, .ok .done) :=
    replies _ _ undertaken (by rw [made]; exact ⟨carries.wellFormed, rfl⟩) (by rw [made]; exact shown)
  have usualIdleFirst : first.1.UsualIdle master.text := usualIdle.request informs spares isRange
  have usualIdleLast : last.1.UsualIdle master.text :=
    usualIdle_requests informs spares usualIdleFirst ranges
  have same : first.1 = still := congrArg Prod.fst requested
  rw [same] at usualIdleFirst
  have lasting : last = still.requests (publish audience) master requests := by
    rw [← same]
  refine ⟨congrArg Prod.snd requested, fun phase => ?_⟩
  obtain ⟨nested, done, meets⟩ : ∃ nested,
      undertake (publish (.acting note actor phase requests)) master session planned = .done nested ∧
        nested.Meets last := by
    rw [lasting]
    cases phase with
    | before =>
      exact undertake_before informs spares ranges usualIdle untold enough present carries
        usualIdleFirst made notices note
    | after =>
      exact undertake_after informs ranges usualIdle untold enough present carries usualIdleFirst made
        notices note
  have wf : nested.projection.WellFormed master.text :=
    meets.projection ▸ usualIdleLast.sound.wellFormed
  rw [requested, replies _ _ done wf (meets.projection ▸ granted)]
  exact ⟨rfl, meets⟩

def twoEyes : Session (Nat × Option (List Reply)) where
  projection := { twoEnds.projection with listeners := { ids := [0, 1], nextId := 2 } }
  memory := (0, none)
  allowance := 2

theorem twoEyes_usualIdle : twoEyes.UsualIdle ['a', 'b', 'c', 'd', 'e'] where
  live := rfl
  drained := ⟨rfl, rfl⟩
  usual := rfl
  sound := Projection.casual_soundIdle.audience _ { ids := [0, 1], nextId := 2 } twoEnds_usualIdle.sound

/-- While the hidden character is added, the first character is removed, and something is asked for that
does not exist. -/
theorem request_serial_added :
    let first := twoEyes.request
      (publish (.noting fun memory _ => (memory.1 + 1, memory.2)))
      { text := ['a', 'b', 'c', 'd', 'e'] } (.add ⟨1, 3⟩)
    let last := first.1.requests
      (publish (.noting fun memory _ => (memory.1 + 1, memory.2)))
      { text := ['a', 'b', 'c', 'd', 'e'] } [.remove ⟨0, 1⟩, .add ⟨9, 9⟩]
    first.2 = .ok .done ∧ ∀ phase,
      let nested := twoEyes.request
        (publish (.acting (fun count _ => count + 1) 0 phase [.remove ⟨0, 1⟩, .add ⟨9, 9⟩]))
        { text := ['a', 'b', 'c', 'd', 'e'] } (.add ⟨1, 3⟩)
      nested.2 = first.2 ∧ nested.1.Meets last := by
  have fits : Master.length { text := ['a', 'b', 'c', 'd', 'e'] } < Offset.bound := by decide
  have single : twoEyes.projection.Single ['a', 'b', 'c', 'd', 'e'] (.add ⟨1, 3⟩) :=
    .add (by decide) (show twoEyes.projection.layout.hidden ⟨1, 3⟩ = [⟨2, 1⟩] by decide)
  have shown : (requests (publish (.noting fun memory _ => (memory.1 + 1, memory.2)))
      { text := ['a', 'b', 'c', 'd', 'e'] } (twoEyes.request
        (publish (.noting fun memory _ => (memory.1 + 1, memory.2)))
        { text := ['a', 'b', 'c', 'd', 'e'] } (.add ⟨1, 3⟩)).1
      [.remove ⟨0, 1⟩, .add ⟨9, 9⟩]).1.projection.layout = ⟨[⟨⟨1, 4, false⟩, ⟨0, 4, false⟩⟩]⟩ := by
    decide
  have granted (position : Nat) (covers : Region.Covers ⟨1, 3⟩ position) :
      Layout.Shows ⟨[⟨⟨1, 4, false⟩, ⟨0, 4, false⟩⟩]⟩ position :=
    ⟨_, List.mem_singleton_self _, rfl, covers.1, Nat.lt_succ_of_lt covers.2⟩
  exact request_serial (Audience.noting_passive _) (fun count _ => count + 1) fits twoEyes_usualIdle
    single (by simp [Request.Ranges]) rfl (by decide) (by decide) (shown ▸ granted)

end Session

end TextProjection
