import TextProjection.Proofs.Session.Busy
import TextProjection.Proofs.Session.Publish
import TextProjection.Proofs.Workspace.Alone

/-! What listeners are told, whatever is done with a projection. Its master may be edited unknown to it,
edits may be announced that are never made and others confirmed that were not announced. Each change of
the text is told before and after all the same, one change after the other, and nobody is told of
anything while somebody reacts.
-/

set_option autoImplicit false

namespace TextProjection

variable {μ : Type} {audience : Audience μ}

namespace Session

/-- Nothing is under way and nothing is left to be told. -/
structure AllTold (session : Session μ) : Prop where
  idle : session.projection.planned = none
  listeners : session.projection.listeners.Drained
  numbered : session.projection.listeners.Numbered

variable {changes : Change → Prop} {telling : Listeners → Prop} {session after : Session μ}
  {past news : List Entry} {listener : Nat}

theorem toldOnce_moment (numbered : session.projection.listeners.Numbered) :
    session.moment.ToldOnce :=
  ⟨numbered, fun _ _ found => by cases found⟩

theorem accounts_moment (drained : session.projection.listeners.Drained)
    (numbered : session.projection.listeners.Numbered)
    (subscribed : listener ∈ session.projection.listeners.ids) :
    session.moment.Accounts session.journal listener where
  known := numbered.given listener subscribed
  account := by
    refine ⟨[], (List.append_nil _).symm, fun _ => ?_⟩
    simp [moment, Moment.Account, Moment.owed, drained.1, Journal.told, Journal.made]

theorem replays_moment (session : Session μ) :
    session.moment.Replays session.journal session.projection.text :=
  ⟨[], (List.append_nil _).symm, rfl⟩

theorem told_eq (drained : after.projection.listeners.Drained)
    (accounts : after.moment.Accounts past listener)
    (subscribed : listener ∈ after.projection.listeners.ids)
    (journal : after.journal = past ++ news) :
    Journal.told listener news = (Journal.made news).flatMap Change.notifications := by
  obtain ⟨_, same, account⟩ := accounts.account
  obtain rfl := List.append_cancel_left (journal.symm.trans same)
  simpa [moment, Moment.Account, Moment.owed, drained.1] using account subscribed

theorem replay_eq {text : Text} (replays : after.moment.Replays past text)
    (journal : after.journal = past ++ news) :
    text.replay (Journal.made news) = some after.projection.text := by
  obtain ⟨_, same, replayed⟩ := replays
  obtain rfl := List.append_cancel_left (journal.symm.trans same)
  exact replayed

def attending (audience : Audience μ) : Regime := hearing audience (fun _ => True) fun _ _ => trivial

theorem AllTold.settles (audience : Audience μ) (allTold : session.AllTold) :
    session.Settles (attending audience) session.moment :=
  .of_leads .refl allTold.listeners allTold.idle

theorem Settles.allTold (settles : after.Settles (attending audience) session.moment)
    (numbered : session.projection.listeners.Numbered) : after.AllTold where
  idle := settles.idle
  listeners := settles.between
  numbered := settles.leads_none.numbered numbered

/-- Who is subscribed all the time is told before and after of each change that is made. All that
happens while a listener reacts is told later. -/
theorem told_of_settles (allTold : session.AllTold)
    (settles : after.Settles (attending audience) session.moment)
    (whole : after.projection.broken = false) :
    ∃ news, after.journal = session.journal ++ news ∧
      session.projection.text.replay (Journal.made news) = some after.projection.text ∧
      (∀ listener ∈ session.projection.listeners.ids, listener ∈ after.projection.listeners.ids →
        Journal.told listener news = (Journal.made news).flatMap Change.notifications) ∧
      ∀ delivery, .delivered delivery ∈ news →
        ∀ session : Session μ, session.projection = delivery.projection →
          let reaction := audience session.memory delivery
          performWith (publish audience) delivery.master reaction session =
              perform delivery.master reaction session ∧
            (perform delivery.master reaction session).notices = session.notices := by
  have leads : Moment.Leads (fun _ => True) audience.telling session.moment after.moment :=
    settles.leads_none
  obtain ⟨news, journal⟩ := leads.journal
  refine ⟨news, journal, replay_eq (leads.replays whole (replays_moment session)) journal,
    fun listener before still => ?_, fun delivery member reacting same => ?_⟩
  · have accounts := leads.accounts whole (toldOnce_moment allTold.numbered)
      (accounts_moment allTold.listeners allTold.numbered before)
    exact told_eq settles.between accounts still journal
  · obtain ⟨earlier, later, split⟩ := List.append_of_mem member
    obtain ⟨middle, -, -, -, tells⟩ := leads.tells (journal.trans (congrArg (_ ++ ·) split))
    have busy : reacting.Busy reacting.notices := ⟨same ▸ tells.ready.1, rfl⟩
    obtain ⟨performed, waiting⟩ := perform_waits (audience reacting.memory delivery) busy
    exact ⟨performed, waiting.notices⟩

end Session

namespace Solo

open Session (attending)

/-- What is done with a projection alone, or what it goes through in a workspace. -/
inductive Call where
  | run (command : Command)
  | undergo (experience : Experience)
  deriving DecidableEq, Repr

def call (audience : Audience μ) (solo : Solo μ) : Call → Solo μ
  | .run command => (solo.run audience command).1
  | .undergo experience => solo.undergo audience experience

/-- The states of all runs through which a projection stays in use. -/
inductive Stays (audience : Audience μ) (first : Solo μ) : Solo μ → Prop
  | first : Stays audience first first
  | call {solo : Solo μ} (stays : Stays audience first solo) (call : Call)
      (live : (solo.call audience call).session.projection.closed? = none) :
      Stays audience first (solo.call audience call)

variable {solo : Solo μ}

theorem start_allTold (text : Text) (options : Options) (memory : μ) (allowance : Nat) :
    (start text options memory allowance).session.AllTold where
  idle := rfl
  listeners := ⟨rfl, rfl⟩
  numbered := ⟨.nil, fun _ member => by cases member⟩

theorem closed?_dispose (projection : Projection) : projection.dispose.closed? = some .disposed := by
  unfold Projection.dispose
  split
  · next disposed => simp [Projection.closed?, disposed]
  · rfl

section
variable (forbears : audience.Forbears)

include forbears in
theorem paces : (publish audience).Paces (attending audience) :=
  Session.publish_paces forbears _ _

include forbears in
theorem run_settles {first : Moment μ} (settles : solo.session.Settles (attending audience) first)
    (command : Command)
    (live : (solo.run audience command).1.session.projection.closed? = none) :
    (solo.run audience command).1.session.Settles (attending audience) first := by
  have paces := paces forbears
  have anything : ∀ change, (attending audience).changes change := fun _ => trivial
  cases command with
  | act act =>
    refine Session.act_settles paces anything solo.master (fun gives => ?_) settles
    subst gives
    cases (closed?_dispose _).symm.trans live
  | edit region text => exact Session.editMaster_settles paces anything solo.master region text settles
  | replace image text => exact Session.replace_settles paces anything solo.master image text settles
  | set text => exact Session.replace_settles paces anything solo.master _ text settles
  | prepare region text =>
    simp only [run, runBy]
    split <;> exact settles
  | commit edit =>
    simp only [run, runBy]
    split <;> exact settles
  | rawEdit region text =>
    simp only [run, runBy]
    split <;> exact settles

include forbears in
theorem hear_settles {first : Moment μ} (solo : Solo μ)
    (settles : solo.session.Settles (attending audience) first) (region : Region) (text : Text) :
    (solo.hear audience region text).session.Settles (attending audience) first := by
  have paces := paces forbears
  obtain ⟨master, session⟩ := solo
  by_cases inside : region.Inside master.length
  · rw [hear_of_inside inside]
    exact Session.confirm_settles paces _ (fun _ _ => trivial) (fun _ _ _ _ _ => trivial)
      (Session.anticipate_settles paces _ _ settles)
  · rw [hear_of_outside inside]
    exact settles

include forbears in
theorem undergo_settles {first : Moment μ}
    (settles : solo.session.Settles (attending audience) first) (experience : Experience)
    (live : (solo.undergo audience experience).session.projection.closed? = none) :
    (solo.undergo audience experience).session.Settles (attending audience) first := by
  cases experience with
  | request request => exact run_settles forbears settles (.act (.request request)) live
  | hear region text => exact hear_settles forbears solo settles region text
  | forward image text =>
    simp only [undergo]
    split
    · exact settles
    · next origin projection begins =>
      have heard := hear_settles forbears { solo with session := { solo.session with projection } }
        (settles.forwarding begins) origin text
      exact heard.endForwarding

include forbears in
theorem call_settles (allTold : solo.session.AllTold) (call : Call)
    (live : (solo.call audience call).session.projection.closed? = none) :
    (solo.call audience call).session.Settles (attending audience) solo.session.moment := by
  cases call with
  | run command => exact run_settles forbears (allTold.settles audience) command live
  | undergo experience => exact undergo_settles forbears (allTold.settles audience) experience live

end

theorem Stays.allTold (forbears : audience.Forbears) {first : Solo μ}
    (allTold : first.session.AllTold)
    (stays : Stays audience first solo) : solo.session.AllTold := by
  induction stays with
  | first => exact allTold
  | call stays call live ih =>
    exact (call_settles forbears ih call live).allTold ih.numbered

/-- Whatever is done with a projection, as long as it stays in use: of each change that a call makes,
who is subscribed all the time is told before and after, one change after the other, and all that
happens while a listener reacts is told later. -/
theorem told_of_stays (forbears : audience.Forbears) {text : Text} {options : Options} {memory : μ}
    {allowance : Nat} (stays : Stays audience (start text options memory allowance) solo) (call : Call)
    (live : (solo.call audience call).session.projection.closed? = none) :
    ∃ news, (solo.call audience call).session.journal = solo.session.journal ++ news ∧
      solo.session.projection.text.replay (Journal.made news) =
        some (solo.call audience call).session.projection.text ∧
      (∀ listener ∈ solo.session.projection.listeners.ids,
        listener ∈ (solo.call audience call).session.projection.listeners.ids →
          Journal.told listener news = (Journal.made news).flatMap Change.notifications) ∧
      ∀ delivery, .delivered delivery ∈ news →
        ∀ session : Session μ, session.projection = delivery.projection →
          let reaction := audience session.memory delivery
          Session.performWith (publish audience) delivery.master reaction session =
              Session.perform delivery.master reaction session ∧
            (Session.perform delivery.master reaction session).notices = session.notices := by
  have allTold := stays.allTold forbears (start_allTold text options memory allowance)
  exact Session.told_of_settles allTold (call_settles forbears allTold call live)
    (Projection.usable_of_closed? live).2

/-- A listener that hides a character as soon as it is shown. -/
def trimming : Audience Bool := .once (.remove ⟨1, 1⟩)

theorem trimming_forbears : trimming.Forbears := Audience.once_forbears (by decide)

def watched : Solo Bool :=
  (start ['a', 'b', 'c', 'd'] {} false 1).call trimming (.run (.act (.request .subscribe)))

def trimmed : Solo Bool := watched.call trimming (.run (.act (.request (.add ⟨0, 3⟩))))

def estranged : Solo Bool :=
  trimmed.call trimming (.run (.rawEdit ⟨0, 1⟩ ['x']))
    |>.call trimming (.run (.rawEdit ⟨3, 0⟩ ['y', 'y']))

/-- The listener acts on being told of the first change. Later on an edit is confirmed that was never
made, so that the text has to be read anew. -/
theorem told_of_stays_estranged :
    (∃ news, trimmed.session.journal = watched.session.journal ++ news ∧
      (Journal.made news).length = 3 ∧
      Journal.told 0 news = (Journal.made news).flatMap Change.notifications) ∧
    let settled := estranged.call trimming (.run (.act (.confirm ⟨7, ⟨0, 1⟩, ['w']⟩)))
    ∃ news, settled.session.journal = estranged.session.journal ++ news ∧
      (Journal.made news).length = 1 ∧
      Journal.told 0 news = (Journal.made news).flatMap Change.notifications := by
  have stays : Stays trimming (start ['a', 'b', 'c', 'd'] {} false 1) watched := by
    exact .call .first _ (by decide +kernel)
  constructor
  · obtain ⟨news, journal, -, told, -⟩ :=
      told_of_stays trimming_forbears stays (.run (.act (.request (.add ⟨0, 3⟩)))) (by decide +kernel)
    refine ⟨news, journal, ?_, told 0 (by decide +kernel) (by decide +kernel)⟩
    have same : news = trimmed.session.journal.drop watched.session.journal.length := by
      rw [trimmed, journal, List.drop_left]
    rw [same]
    decide +kernel
  · have stays : Stays trimming (start ['a', 'b', 'c', 'd'] {} false 1) estranged := by
      apply Stays.call _ _ (by decide +kernel)
      apply Stays.call _ _ (by decide +kernel)
      exact stays.call _ (by decide +kernel)
    intro settled
    obtain ⟨news, journal, -, told, -⟩ := told_of_stays trimming_forbears stays
      (.run (.act (.confirm ⟨7, ⟨0, 1⟩, ['w']⟩))) (by decide +kernel)
    refine ⟨news, journal, ?_, told 0 (by decide +kernel) (by decide +kernel)⟩
    have same : news = settled.session.journal.drop estranged.session.journal.length := by
      change news = (estranged.call trimming _).session.journal.drop _
      rw [journal, List.drop_left]
    rw [same]
    decide +kernel

end Solo

end TextProjection
