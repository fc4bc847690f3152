import Mathlib.Data.List.Nodup
import Mathlib.Logic.Relation
import TextProjection.Proofs.Session.Journal
import TextProjection.Session.Dispatch

/-! What happens to a session, in its smallest steps, as far as listeners can know of it: a change is
announced, made, put into the queue, taken out of it and handed to one listener after the other.
Whatever each of the steps keeps is kept by all that can be done with a session.
-/

set_option autoImplicit false

namespace TextProjection

variable {μ : Type}

/-! Steps -/

/-- Nobody was told of the difference between the two. -/
structure Session.Unheard (first second : Session μ) : Prop where
  journal : second.journal = first.journal
  listeners : second.projection.listeners = first.projection.listeners
  disposed : second.projection.disposed = first.projection.disposed

structure Session.Alike (first second : Session μ) : Prop extends first.Unheard second where
  text : second.projection.text = first.projection.text
  broken : first.projection.broken = true → second.projection.broken = true

theorem Session.Unheard.refl (session : Session μ) : session.Unheard session := ⟨rfl, rfl, rfl⟩

theorem Session.Alike.refl (session : Session μ) : session.Alike session :=
  ⟨.refl session, rfl, id⟩

/-- A session in the midst of things. -/
structure Moment (μ : Type) where
  session : Session μ
  opened : Option Change
  /-- What is being delivered, and who is to be told of it yet. -/
  current : Option (Notification × List Nat)

def Session.moment (session : Session μ) : Moment μ := ⟨session, none, none⟩

namespace Moment

/-- What can happen next, if changes of some sort are made and listeners are told under some
condition. -/
inductive Step (changes : Change → Prop) (telling : Listeners → Prop) :
    Moment μ → Moment μ → Prop
  | rest {session after : Session μ} {opened : Option Change}
      {current : Option (Notification × List Nat)} (alike : session.Alike after) :
      Step changes telling ⟨session, opened, current⟩ ⟨after, opened, current⟩
  | subscribe {session : Session μ} {opened : Option Change}
      {current : Option (Notification × List Nat)} :
      Step changes telling ⟨session, opened, current⟩
        ⟨session.update fun projection => projection.subscribe.2, opened, current⟩
  | unsubscribe {session : Session μ} {opened : Option Change}
      {current : Option (Notification × List Nat)} (listener : Nat) :
      Step changes telling ⟨session, opened, current⟩
        ⟨session.update fun projection => (projection.unsubscribe listener).2, opened, current⟩
  | announce {session after : Session μ} {current : Option (Notification × List Nat)}
      {change : Change} (master : Master) (permitted : changes change)
      (alike : session.Alike after) :
      Step changes telling ⟨session, none, current⟩
        ⟨Session.enqueue master .before change after, some change, current⟩
  | make {session after : Session μ} {current : Option (Notification × List Nat)}
      {change : Change} (master : Master)
      (makes : session.projection.text.make? change = some after.projection.text)
      (unheard : session.Unheard after)
      (still : after.projection.broken = session.projection.broken) :
      Step changes telling ⟨session, some change, current⟩
        ⟨Session.enqueue master .after change (after.record (.applied change)), none, current⟩
  /-- A fault is found, and nothing comes of the change that was announced. -/
  | fault {session after : Session μ} {opened : Option Change}
      {current : Option (Notification × List Nat)} (unheard : session.Unheard after)
      (broken : after.projection.broken = true) :
      Step changes telling ⟨session, opened, current⟩ ⟨after, none, current⟩
  | switch {session : Session μ} {opened : Option Change} (on : Bool) :
      Step changes telling ⟨session, opened, none⟩ ⟨session.setDispatching on, opened, none⟩
  | take {session : Session μ} {opened : Option Change} {notification : Notification}
      {rest : List Notification}
      (waiting : session.projection.listeners.queue = notification :: rest) :
      Step changes telling ⟨session, opened, none⟩
        ⟨session.update fun projection => { projection with listeners.queue := rest }, opened,
          some (notification, session.projection.listeners.ids)⟩
  | hand {session : Session μ} {opened : Option Change} {notification : Notification}
      {listener : Nat} {rest : List Nat} (master : Master)
      (ready : telling session.projection.listeners)
      (subscribed : listener ∈ session.projection.listeners.ids) :
      Step changes telling ⟨session, opened, some (notification, listener :: rest)⟩
        ⟨session.record (.delivered ⟨listener, notification, master, session.projection⟩), opened,
          some (notification, rest)⟩
  | pass {session : Session μ} {opened : Option Change} {notification : Notification}
      {listener : Nat} {rest : List Nat}
      (left : listener ∉ session.projection.listeners.ids) :
      Step changes telling ⟨session, opened, some (notification, listener :: rest)⟩
        ⟨session, opened, some (notification, rest)⟩
  | finish {session : Session μ} {opened : Option Change} {notification : Notification} :
      Step changes telling ⟨session, opened, some (notification, [])⟩ ⟨session, opened, none⟩

def Leads (changes : Change → Prop) (telling : Listeners → Prop) :
    Moment μ → Moment μ → Prop :=
  Relation.ReflTransGen (Step changes telling)

end Moment

/-! What the steps keep -/

structure Listeners.Numbered (listeners : Listeners) : Prop where
  distinct : listeners.ids.Nodup
  given : ∀ listener ∈ listeners.ids, listener < listeners.nextId

theorem Listeners.Numbered.congr {first second : Listeners} (numbered : first.Numbered)
    (ids : second.ids = first.ids) (nextId : second.nextId = first.nextId) : second.Numbered where
  distinct := ids ▸ numbered.distinct
  given listener member := nextId ▸ numbered.given listener (ids ▸ member)

namespace Session

theorem enqueue_eq (master : Master) (phase : Phase) (change : Change) (session : Session μ) :
    enqueue master phase change session = session.update fun projection => { projection with
      listeners.queue := projection.listeners.queue ++
        if projection.listeners.ids = [] then [] else [⟨phase, change⟩] } := by
  unfold enqueue
  split
  · next nobody =>
    simp only [update, if_pos (List.isEmpty_iff.mp nobody), List.append_nil]
  · next somebody =>
    simp only [update, if_neg (mt List.isEmpty_iff.mpr somebody)]

theorem journal_record {session : Session μ} {past news : List Entry}
    (journal : session.journal = past ++ news) (entry : Entry) :
    (session.record entry).journal = past ++ (news ++ [entry]) := by
  rw [← List.append_assoc, ← journal]
  rfl

section
variable (master : Master) (phase : Phase) (change : Change) (session : Session μ)

@[simp] theorem enqueue_journal :
    (enqueue master phase change session).journal = session.journal := by
  rw [enqueue_eq]
  rfl

@[simp] theorem enqueue_text :
    (enqueue master phase change session).projection.text = session.projection.text := by
  rw [enqueue_eq]
  rfl

@[simp] theorem enqueue_disposed :
    (enqueue master phase change session).projection.disposed = session.projection.disposed := by
  rw [enqueue_eq]
  rfl

@[simp] theorem enqueue_broken :
    (enqueue master phase change session).projection.broken = session.projection.broken := by
  rw [enqueue_eq]
  rfl

@[simp] theorem enqueue_ids :
    (enqueue master phase change session).projection.listeners.ids =
      session.projection.listeners.ids := by
  rw [enqueue_eq]
  rfl

@[simp] theorem enqueue_nextId :
    (enqueue master phase change session).projection.listeners.nextId =
      session.projection.listeners.nextId := by
  rw [enqueue_eq]
  rfl

end

theorem enqueue_queue {session : Session μ} {listener : Nat}
    (subscribed : listener ∈ session.projection.listeners.ids) (master : Master) (phase : Phase)
    (change : Change) :
    (enqueue master phase change session).projection.listeners.queue =
      session.projection.listeners.queue ++ [⟨phase, change⟩] := by
  rw [enqueue_eq]
  simp [update, List.ne_nil_of_mem subscribed]

end Session

namespace Moment

variable {changes : Change → Prop} {telling : Listeners → Prop} {first second : Moment μ}
  {past : List Entry}

theorem Step.whole (step : Step changes telling first second)
    (whole : second.session.projection.broken = false) :
    first.session.projection.broken = false := by
  by_contra faulty
  have broken : first.session.projection.broken = true := by simpa using faulty
  suffices known : second.session.projection.broken = true by
    rw [whole] at known
    cases known
  cases step with
  | rest alike => exact alike.broken broken
  | announce master permitted alike =>
    rw [Session.enqueue_broken]
    exact alike.broken broken
  | make master makes unheard still =>
    rw [Session.enqueue_broken]
    exact still.trans broken
  | fault _ found => exact found
  | _ => exact broken

theorem Leads.keeps (property : Moment μ → Prop)
    (kept : ∀ {first second : Moment μ}, Step changes telling first second → property first →
      property second)
    (leads : Leads changes telling first second) (holds : property first) : property second := by
  induction leads with
  | refl => exact holds
  | tail _ step ih => exact kept step ih

theorem Leads.keeps_of_whole (property : Moment μ → Prop)
    (kept : ∀ {first second : Moment μ}, Step changes telling first second →
      second.session.projection.broken = false → property first → property second)
    (leads : Leads changes telling first second)
    (whole : second.session.projection.broken = false) (holds : property first) :
    property second := by
  induction leads with
  | refl => exact holds
  | tail _ step ih => exact kept step whole (ih (step.whole whole))

theorem Step.mono {others : Change → Prop} (wider : ∀ change, changes change → others change)
    (step : Step changes telling first second) : Step others telling first second := by
  cases step with
  | rest alike => exact .rest alike
  | subscribe => exact .subscribe
  | unsubscribe listener => exact .unsubscribe listener
  | announce master permitted alike => exact .announce master (wider _ permitted) alike
  | make master makes unheard still => exact .make master makes unheard still
  | fault unheard broken => exact .fault unheard broken
  | switch on => exact .switch on
  | take waiting => exact .take waiting
  | hand master ready subscribed => exact .hand master ready subscribed
  | pass left => exact .pass left
  | finish => exact .finish

theorem Leads.mono {others : Change → Prop} (wider : ∀ change, changes change → others change)
    (leads : Leads changes telling first second) : Leads others telling first second :=
  Relation.ReflTransGen.mono (fun _ _ => Step.mono wider) _ _ leads

/-- No step disposes of the projection. -/
theorem Leads.disposed_eq (leads : Leads changes telling first second) :
    second.session.projection.disposed = first.session.projection.disposed := by
  refine leads.keeps (fun moment => moment.session.projection.disposed = _) (fun step same => ?_) rfl
  cases step with
  | rest alike => exact alike.disposed.trans same
  | announce master permitted alike =>
    exact (Session.enqueue_disposed master ..).trans (alike.disposed.trans same)
  | make master makes unheard still =>
    exact (Session.enqueue_disposed master ..).trans (unheard.disposed.trans same)
  | fault unheard broken => exact unheard.disposed.trans same
  | _ => exact same

theorem Leads.whole (leads : Leads changes telling first second)
    (whole : second.session.projection.broken = false) :
    first.session.projection.broken = false := by
  induction leads with
  | refl => exact whole
  | tail _ step ih => exact ih (step.whole whole)

theorem Leads.numbered (leads : Leads changes telling first second)
    (numbered : first.session.projection.listeners.Numbered) :
    second.session.projection.listeners.Numbered := by
  refine leads.keeps (fun moment => moment.session.projection.listeners.Numbered)
    (fun step numbered => ?_) numbered
  cases step with
  | rest alike =>
    rw [← alike.listeners] at numbered
    exact numbered
  | subscribe =>
    constructor
    · refine List.nodup_append.mpr ⟨numbered.distinct, List.nodup_singleton _, ?_⟩
      rintro listener member _ new rfl
      exact Nat.lt_irrefl _ (List.mem_singleton.mp new ▸ numbered.given listener member)
    · intro listener member
      rcases List.mem_append.mp member with old | new
      · exact Nat.lt_succ_of_lt (numbered.given listener old)
      · exact List.mem_singleton.mp new ▸ Nat.lt_succ_self _
  | unsubscribe listener =>
    exact ⟨numbered.distinct.filter _, fun other member =>
      numbered.given other (List.mem_filter.mp member).1⟩
  | announce master permitted alike =>
    rw [← alike.listeners] at numbered
    exact numbered.congr (Session.enqueue_ids master ..) (Session.enqueue_nextId master ..)
  | make master makes unheard still =>
    have numbered := unheard.listeners.symm ▸ numbered
    exact numbered.congr (Session.enqueue_ids master ..) (Session.enqueue_nextId master ..)
  | fault unheard broken =>
    rw [← unheard.listeners] at numbered
    exact numbered
  | switch on => exact ⟨numbered.distinct, numbered.given⟩
  | take waiting => exact ⟨numbered.distinct, numbered.given⟩
  | _ => exact numbered

/-- The text is what the changes made since some time make of the text of that time. -/
def Replays (past : List Entry) (text : Text) (moment : Moment μ) : Prop :=
  ∃ news, moment.session.journal = past ++ news ∧
    text.replay (Journal.made news) = some moment.session.projection.text

theorem Leads.replays {text : Text} (leads : Leads changes telling first second)
    (whole : second.session.projection.broken = false) (replays : first.Replays past text) :
    second.Replays past text := by
  refine leads.keeps_of_whole (Replays past text) (fun step whole replays => ?_) whole replays
  obtain ⟨news, journal, replayed⟩ := replays
  cases step with
  | rest alike => exact ⟨news, alike.journal.trans journal, replayed.trans (by rw [alike.text])⟩
  | announce master permitted alike =>
    refine ⟨news, (Session.enqueue_journal master ..).trans (alike.journal.trans journal), ?_⟩
    rw [Session.enqueue_text, alike.text]
    exact replayed
  | make master makes unheard still =>
    refine ⟨_, (Session.enqueue_journal master ..).trans
      (Session.journal_record (unheard.journal.trans journal) _), ?_⟩
    rw [Journal.made_applied, Text.replay_concat, replayed, Option.bind_some, Session.enqueue_text]
    exact makes
  | fault unheard broken => cases whole.symm.trans broken
  | hand master ready subscribed =>
    refine ⟨_, Session.journal_record journal _, ?_⟩
    rw [Journal.made_delivered]
    exact replayed
  | _ => exact ⟨news, journal, replayed⟩

/-- Nobody is told twice of what is being delivered. -/
structure ToldOnce (moment : Moment μ) : Prop where
  numbered : moment.session.projection.listeners.Numbered
  once : ∀ notification rest, moment.current = some (notification, rest) → rest.Nodup

theorem Leads.toldOnce (leads : Leads changes telling first second) (toldOnce : first.ToldOnce) :
    second.ToldOnce := by
  apply leads.keeps ToldOnce _ toldOnce
  intro first second step toldOnce
  have numbered := Leads.numbered (.single step) toldOnce.numbered
  obtain ⟨before, once⟩ := toldOnce
  cases step with
  | take waiting =>
    constructor
    · exact numbered
    · intro notification rest same
      cases same
      exact before.distinct
  | hand master ready subscribed =>
    constructor
    · exact numbered
    · intro notification rest same
      cases same
      exact (List.nodup_cons.mp (once _ _ rfl)).2
  | pass left =>
    constructor
    · exact numbered
    · intro notification rest same
      cases same
      exact (List.nodup_cons.mp (once _ _ rfl)).2
  | finish => exact ⟨numbered, fun _ _ same => by cases same⟩
  | _ => exact ⟨numbered, once⟩

theorem Step.nextId_le (step : Step changes telling first second) :
    first.session.projection.listeners.nextId ≤ second.session.projection.listeners.nextId := by
  cases step with
  | rest alike => exact Nat.le_of_eq (congrArg Listeners.nextId alike.listeners).symm
  | subscribe => exact Nat.le_succ _
  | announce master permitted alike =>
    rw [Session.enqueue_nextId]
    exact Nat.le_of_eq (congrArg Listeners.nextId alike.listeners).symm
  | make master makes unheard still =>
    rw [Session.enqueue_nextId]
    exact Nat.le_of_eq (congrArg Listeners.nextId unheard.listeners).symm
  | fault unheard broken => exact Nat.le_of_eq (congrArg Listeners.nextId unheard.listeners).symm
  | _ => exact Nat.le_refl _

/-- What a listener has yet to be told of what is being delivered. -/
def owed (listener : Nat) : Option (Notification × List Nat) → List Notification
  | none => []
  | some (notification, rest) => if listener ∈ rest then [notification] else []

theorem owed_of_mem {listener : Nat} {rest : List Nat} (member : listener ∈ rest)
    (notification : Notification) : owed listener (some (notification, rest)) = [notification] :=
  if_pos member

theorem owed_of_not_mem {listener : Nat} {rest : List Nat} (told : listener ∉ rest)
    (notification : Notification) : owed listener (some (notification, rest)) = [] :=
  if_neg told

theorem owed_cons_of_ne {listener other : Nat} (different : other ≠ listener)
    (notification : Notification) (rest : List Nat) :
    owed listener (some (notification, other :: rest)) =
      owed listener (some (notification, rest)) := by
  have still : listener ∈ other :: rest ↔ listener ∈ rest :=
    List.mem_cons.trans (or_iff_right fun equal => different equal.symm)
  simp only [owed, still]

/-- Of the changes made since some time a listener was told both before and after, or will be, and of
the one that is open before. -/
def Account (listener : Nat) (news : List Entry) (moment : Moment μ) : Prop :=
  Journal.told listener news ++ owed listener moment.current ++
      moment.session.projection.listeners.queue =
    (Journal.made news).flatMap Change.notifications ++ moment.opened.toList.map (⟨.before, ·⟩)

structure Accounts (past : List Entry) (listener : Nat) (moment : Moment μ) : Prop where
  known : listener < moment.session.projection.listeners.nextId
  account : ∃ news, moment.session.journal = past ++ news ∧
    (listener ∈ moment.session.projection.listeners.ids → Account listener news moment)

theorem Step.accounts {listener : Nat} (step : Step changes telling first second)
    (whole : second.session.projection.broken = false) (toldOnce : first.ToldOnce)
    (accounts : first.Accounts past listener) : second.Accounts past listener := by
  obtain ⟨known, news, journal, account⟩ := accounts
  refine ⟨Nat.lt_of_lt_of_le known step.nextId_le, ?_⟩
  cases step with
  | rest alike =>
    refine ⟨news, alike.journal.trans journal, ?_⟩
    rw [Account, alike.listeners]
    exact account
  | subscribe =>
    refine ⟨news, journal, fun member => account ?_⟩
    rcases List.mem_append.mp member with old | new
    · exact old
    · exact absurd (List.mem_singleton.mp new) (Nat.ne_of_lt known)
  | unsubscribe other => exact ⟨news, journal, fun member => account (List.mem_filter.mp member).1⟩
  | announce master permitted alike =>
    refine ⟨news, (Session.enqueue_journal master ..).trans (alike.journal.trans journal),
      fun member => ?_⟩
    rw [Session.enqueue_ids] at member
    rw [Account, Session.enqueue_queue member, alike.listeners, ← List.append_assoc]
    rw [alike.listeners] at member
    exact congrArg (· ++ [_]) ((account member).trans (List.append_nil _))
  | @make session after current change master makes unheard still =>
    refine ⟨_, (Session.enqueue_journal master ..).trans
      (Session.journal_record (unheard.journal.trans journal) _), fun member => ?_⟩
    have listeners : (after.record (.applied change)).projection.listeners =
        session.projection.listeners := unheard.listeners
    rw [Session.enqueue_ids] at member
    rw [Account, Session.enqueue_queue member, listeners, Journal.made_applied, Journal.told_applied,
      ← List.append_assoc]
    rw [listeners] at member
    -- The notification that the change was made completes the pair.
    apply (congrArg (· ++ [_]) (account member)).trans
    simp [Change.notifications]
  | fault unheard broken => cases whole.symm.trans broken
  | @take session opened notification rest waiting =>
    refine ⟨news, journal, fun (member : listener ∈ session.projection.listeners.ids) => ?_⟩
    have told := account member
    rw [Account, waiting, owed, List.append_nil] at told
    change Journal.told listener news ++ owed listener (some (notification, _)) ++ rest = _
    rw [owed_of_mem member, List.append_assoc]
    exact told
  | @hand session opened notification other rest master ready subscribed =>
    refine ⟨_, Session.journal_record journal _, fun member => ?_⟩
    have told := account member
    have distinct := List.nodup_cons.mp (toldOnce.once _ _ rfl)
    rw [Account] at told ⊢
    rw [Journal.made_delivered]
    by_cases same : other = listener
    · subst same
      rw [owed_of_mem (List.mem_cons_self ..)] at told
      rw [Journal.told_delivered ⟨other, notification, master, session.projection⟩,
        owed_of_not_mem distinct.1, List.append_nil]
      exact told
    · rw [owed_cons_of_ne same] at told
      rw [Journal.told_delivered_of_ne ⟨other, notification, master, session.projection⟩ same]
      exact told
  | @pass session opened notification other rest left =>
    refine ⟨news, journal, fun member => ?_⟩
    have told := account member
    have different : other ≠ listener := by
      rintro rfl
      exact left member
    rw [Account, owed_cons_of_ne different] at told
    exact told
  | switch on => exact ⟨news, journal, account⟩
  | @finish session opened notification =>
    refine ⟨news, journal, fun member => ?_⟩
    have told := account member
    rw [Account, owed_of_not_mem (List.not_mem_nil)] at told
    exact told

theorem Leads.accounts {listener : Nat} (leads : Leads changes telling first second)
    (whole : second.session.projection.broken = false) (toldOnce : first.ToldOnce)
    (accounts : first.Accounts past listener) : second.Accounts past listener := by
  induction leads with
  | refl => exact accounts
  | tail leads step ih =>
    exact step.accounts whole (Leads.toldOnce leads toldOnce) (ih (step.whole whole))

/-- All that waits to be told, and all that was told since some time, is of the sort of changes that are
being made. -/
structure Permits (changes : Change → Prop) (past : List Entry) (moment : Moment μ) : Prop where
  queue : ∀ notification ∈ moment.session.projection.listeners.queue, changes notification.change
  opened : ∀ change, moment.opened = some change → changes change
  current : ∀ notification rest, moment.current = some (notification, rest) →
    changes notification.change
  told : ∃ news, moment.session.journal = past ++ news ∧
    ∀ delivery, .delivered delivery ∈ news → changes delivery.notification.change

theorem mem_enqueue (master : Master) {phase : Phase} {change : Change} {session : Session μ}
    {notification : Notification}
    (member : notification ∈
      (Session.enqueue master phase change session).projection.listeners.queue) :
    notification ∈ session.projection.listeners.queue ∨ notification.change = change := by
  rw [Session.enqueue_eq] at member
  rcases List.mem_append.mp member with old | new
  · exact .inl old
  · right
    split at new
    · cases new
    · rw [List.mem_singleton.mp new]

theorem Leads.permits (leads : Leads changes telling first second)
    (permits : first.Permits changes past) : second.Permits changes past := by
  refine leads.keeps (Permits changes past) (fun step permits => ?_) permits
  obtain ⟨queue, opened, current, news, journal, told⟩ := permits
  cases step with
  | rest alike =>
    exact ⟨by rw [alike.listeners]; exact queue, opened, current, news,
      alike.journal.trans journal, told⟩
  | announce master permitted alike =>
    refine ⟨fun notification member => ?_, fun _ same => Option.some.inj same ▸ permitted, current,
      news, (Session.enqueue_journal master ..).trans (alike.journal.trans journal), told⟩
    rcases mem_enqueue master member with old | new
    · exact queue notification (alike.listeners ▸ old)
    · exact new ▸ permitted
  | make master makes unheard still =>
    refine ⟨fun notification member => ?_, (fun _ found => by cases found), current, _,
      (Session.enqueue_journal master ..).trans
        (Session.journal_record (unheard.journal.trans journal) _), fun delivery member => ?_⟩
    · rcases mem_enqueue master member with old | new
      · have listeners := unheard.listeners
        exact queue notification (listeners ▸ old)
      · exact new ▸ opened _ rfl
    · rcases List.mem_append.mp member with old | new
      · exact told delivery old
      · cases List.mem_singleton.mp new
  | fault unheard broken =>
    exact ⟨by rw [unheard.listeners]; exact queue, (fun _ found => by cases found), current, news,
      unheard.journal.trans journal, told⟩
  | take waiting =>
    have waits {notification : Notification} (member : notification ∈ _) :
        changes notification.change := queue notification (waiting ▸ member)
    refine ⟨fun notification member => waits (List.mem_cons_of_mem _ member), opened,
      fun notification rest same => ?_, news, journal, told⟩
    cases same
    exact waits (List.mem_cons_self ..)
  | hand master ready subscribed =>
    refine ⟨queue, opened, fun notification rest same => ?_, _,
      Session.journal_record journal _, fun delivery member => ?_⟩
    · cases same
      exact current _ _ rfl
    · rcases List.mem_append.mp member with old | new
      · exact told delivery old
      · cases List.mem_singleton.mp new
        exact current _ _ rfl
  | pass left =>
    refine ⟨queue, opened, fun notification rest same => ?_, news, journal, told⟩
    cases same
    exact current _ _ rfl
  | finish => exact ⟨queue, opened, (fun _ _ found => by cases found), news, journal, told⟩
  | _ => exact ⟨queue, opened, current, news, journal, told⟩

/-! What happened at a delivery -/

structure Tells (telling : Listeners → Prop) (moment : Moment μ) (delivery : Delivery) : Prop where
  projection : moment.session.projection = delivery.projection
  current : ∃ rest, moment.current = some (delivery.notification, delivery.listener :: rest)
  ready : telling delivery.projection.listeners
  subscribed : delivery.listener ∈ delivery.projection.listeners.ids

theorem Step.journal_cases (step : Step changes telling first second) :
    second.session.journal = first.session.journal ∨
      ∃ entry, second.session.journal = first.session.journal ++ [entry] ∧
        ∀ delivery, entry = .delivered delivery → first.Tells telling delivery := by
  cases step with
  | rest alike => exact .inl alike.journal
  | announce master permitted alike =>
    exact .inl ((Session.enqueue_journal master ..).trans alike.journal)
  | @make session after current change master makes unheard still =>
    refine .inr ⟨.applied change, (Session.enqueue_journal master ..).trans ?_,
      fun delivery same => ?_⟩
    · exact congrArg (· ++ [_]) unheard.journal
    · cases same
  | fault unheard broken => exact .inl unheard.journal
  | hand master ready subscribed =>
    refine .inr ⟨_, rfl, fun delivery same => ?_⟩
    cases same
    exact ⟨rfl, ⟨_, rfl⟩, ready, subscribed⟩
  | _ => exact .inl rfl

theorem Leads.journal (leads : Leads changes telling first second) :
    ∃ news, second.session.journal = first.session.journal ++ news := by
  refine leads.keeps (fun moment => ∃ news, moment.session.journal = _ ++ news)
    (fun step extended => ?_) ⟨[], (List.append_nil _).symm⟩
  obtain ⟨news, journal⟩ := extended
  rcases step.journal_cases with same | ⟨entry, longer, -⟩
  · exact ⟨news, same.trans journal⟩
  · exact ⟨news ++ [entry], by rw [longer, journal, List.append_assoc]⟩

/-- Whatever was told since some time was told at some moment since that time. -/
theorem Leads.tells (leads : Leads changes telling first second) {earlier later : List Entry}
    {delivery : Delivery} (journal : second.session.journal =
      first.session.journal ++ (earlier ++ .delivered delivery :: later)) :
    ∃ middle, Leads changes telling first middle ∧ Leads changes telling middle second ∧
      middle.session.journal = first.session.journal ++ earlier ∧ middle.Tells telling delivery := by
  induction leads generalizing later with
  | refl => simp at journal
  | @tail before after leads step ih =>
    rcases step.journal_cases with same | ⟨entry, longer, tells⟩
    · obtain ⟨middle, reached, rest, happened⟩ := ih (same ▸ journal)
      exact ⟨middle, reached, rest.tail step, happened⟩
    · rcases List.eq_nil_or_concat later with rfl | ⟨others, last, rfl⟩
      · -- It was the last thing that happened.
        have ends := longer.symm.trans (journal.trans (List.append_assoc ..).symm)
        obtain ⟨told, singleton⟩ := List.append_inj' ends rfl
        exact ⟨before, leads, .single step, told, tells delivery (List.singleton_inj.mp singleton)⟩
      · have ends : before.session.journal ++ [entry] =
            (first.session.journal ++ (earlier ++ .delivered delivery :: others)) ++ [last] := by
          rw [← longer, journal]
          simp
        obtain ⟨middle, reached, rest, happened⟩ := ih (List.append_inj' ends rfl).1
        exact ⟨middle, reached, rest.tail step, happened⟩

end Moment

end TextProjection
