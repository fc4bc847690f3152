import TextProjection.Proofs.Projection.Poised
import TextProjection.Proofs.Session.Edit
import TextProjection.Proofs.Session.Moment

/-! All that operations do with a session they do step by step, whatever has become of the session and
of its master. Telling the listeners, who may act on the session, has to be a matter of steps too.
-/

set_option autoImplicit false

namespace TextProjection

variable {μ : Type}

def Projection.announced (projection : Projection) : Option Change :=
  projection.planned.map (·.change)

/-- The circumstances in which a session goes on. -/
structure Regime where
  changes : Change → Prop
  telling : Listeners → Prop
  between : Listeners → Prop
  current : Option (Notification × List Nat)
  ranges : ∀ change, change.kind = .projection → changes change
  anyone : ∀ listeners ids nextId, between listeners → between { listeners with ids, nextId }

namespace Regime

def Leads (regime : Regime) : Moment μ → Moment μ → Prop :=
  Moment.Leads regime.changes regime.telling

def moment (regime : Regime) (session : Session μ) : Moment μ :=
  ⟨session, session.projection.announced, regime.current⟩

end Regime

namespace Session

/-- The session is one that the moment has led to. -/
structure Stems (regime : Regime) (first : Moment μ) (session : Session μ) : Prop where
  leads : regime.Leads first (regime.moment session)
  between : regime.between session.projection.listeners
  poised : session.projection.Poised

structure Settles (regime : Regime) (first : Moment μ) (session : Session μ) : Prop
    extends session.Stems regime first where
  idle : session.projection.planned = none

/-- A fault has led away from where the moment has led to, which nobody was told. -/
structure Strays (regime : Regime) (first : Moment μ) (session : Session μ) : Prop where
  led : ∃ before opened, regime.Leads first ⟨before, opened, regime.current⟩ ∧
    regime.between before.projection.listeners ∧ before.Unheard session
  idle : session.projection.planned = none

/-- The session is one that the moment has led to, with a change announced and not made yet; it is as
before but for its settings and its listeners. -/
structure Opens (regime : Regime) (first : Moment μ) (before : Projection) (change : Change)
    (session : Session μ) : Prop where
  leads : regime.Leads first ⟨session, some change, regime.current⟩
  between : regime.between session.projection.listeners
  held : before.Held session.projection

end Session

/-- Telling the listeners goes step by step, once a notification was put into the queue. While an edit
is pending, they cannot do much. -/
structure Notifier.Paces (notify : Notifier μ) (regime : Regime) : Prop where
  ranges : ∀ master phase change (session : Session μ),
    session.projection.Poised →
      regime.between session.projection.listeners →
        (notify master phase change session).Stems regime
            ⟨Session.enqueue master phase change session, session.projection.announced,
              regime.current⟩ ∧
          (session.projection.planned = none →
            (notify master phase change session).projection.planned = none)
  held : ∀ before : Projection, before.pending.isSome = true →
    ∀ master phase change (session : Session μ), before.Held session.projection →
      regime.between session.projection.listeners →
        (notify master phase change session).Opens regime
          ⟨Session.enqueue master phase change session, some change, regime.current⟩ before change

/-- An operation leads to a session with no range change under way, unless it finds a fault. -/
def Outcome.Comes (regime : Regime) (first : Moment μ) (outcome : Outcome (Session μ)) : Prop :=
  if outcome.error.any Error.isFault then outcome.state.Strays regime first
  else outcome.state.Settles regime first

namespace Session

variable {notify : Notifier μ} {regime : Regime} {master : Master} {first middle : Moment μ}
  {session after : Session μ} {change : Change} {planned : Planned} {region : Region} {edit : Edit}

/-! States between two operations -/

theorem Stems.trans (stems : session.Stems regime middle) (leads : regime.Leads first middle) :
    session.Stems regime first where
  leads := Relation.ReflTransGen.trans leads stems.leads
  between := stems.between
  poised := stems.poised

theorem Stems.live (stems : session.Stems regime first)
    (begun : first.session.projection.disposed = false) : session.projection.disposed = false :=
  stems.leads.disposed_eq.trans begun

theorem Stems.begun (stems : session.Stems regime first)
    (live : session.projection.disposed = false) : first.session.projection.disposed = false :=
  stems.leads.disposed_eq.symm.trans live

theorem Stems.rest (stems : session.Stems regime first) (alike : session.Alike after)
    (same : after.projection.announced = session.projection.announced)
    (poised : after.projection.Poised) :
    after.Stems regime first where
  leads := stems.leads.tail <| by
    unfold Regime.moment
    rw [same]
    exact .rest alike
  between := alike.listeners ▸ stems.between
  poised := poised

theorem moment_of_idle (regime : Regime) (idle : session.projection.planned = none) :
    regime.moment session = ⟨session, none, regime.current⟩ := by
  rw [Regime.moment, Projection.announced, idle]
  rfl

theorem Settles.of_leads (leads : regime.Leads first ⟨session, none, regime.current⟩)
    (between : regime.between session.projection.listeners)
    (idle : session.projection.planned = none) : session.Settles regime first where
  leads := moment_of_idle regime idle ▸ leads
  between := between
  poised := Projection.poised_of_idle idle
  idle := idle

theorem Settles.leads_none (settles : session.Settles regime first) :
    regime.Leads first ⟨session, none, regime.current⟩ :=
  moment_of_idle regime settles.idle ▸ settles.leads

theorem Settles.rest (settles : session.Settles regime first) (alike : session.Alike after)
    (idle : after.projection.planned = none) : after.Settles regime first :=
  .of_leads (settles.leads_none.tail (.rest alike)) (alike.listeners ▸ settles.between) idle

theorem Settles.strays (settles : session.Settles regime first) : session.Strays regime first :=
  ⟨⟨session, none, settles.leads_none, settles.between, .refl session⟩, settles.idle⟩

theorem Strays.settles (strays : session.Strays regime first) :
    (session.update fun projection => { projection with broken := true }).Settles regime first := by
  obtain ⟨⟨before, opened, leads, between, unheard⟩, idle⟩ := strays
  exact .of_leads (leads.tail (.fault ⟨unheard.journal, unheard.listeners, unheard.disposed⟩ rfl))
    (unheard.listeners ▸ between) idle

end Session

namespace Outcome.Comes

variable {regime : Regime} {first : Moment μ} {session : Session μ} {outcome : Outcome (Session μ)}

theorem done (settles : session.Settles regime first) : (Outcome.done session).Comes regime first :=
  settles

theorem fail (settles : session.Settles regime first) (error : Error) :
    (Outcome.fail session error).Comes regime first := by
  unfold Comes
  split
  · exact settles.strays
  · exact settles

theorem stray (faulty : outcome.error.any Error.isFault = true)
    (strays : outcome.state.Strays regime first) : outcome.Comes regime first := by
  rw [Comes, if_pos faulty]
  exact strays

theorem andThen {next : Session μ → Outcome (Session μ)} (comes : outcome.Comes regime first)
    (goes : ∀ session : Session μ, session.Settles regime first →
      (next session).Comes regime first) : (outcome.andThen next).Comes regime first := by
  obtain ⟨state, error⟩ := outcome
  cases error with
  | none => exact goes state comes
  | some error => exact comes

theorem breakOnFault (comes : outcome.Comes regime first) :
    (Session.breakOnFault outcome).state.Settles regime first := by
  unfold Comes at comes
  unfold Session.breakOnFault
  split at comes
  · next faulty =>
    rw [if_pos faulty]
    exact comes.settles
  · next sound =>
    rw [if_neg sound]
    exact comes

end Outcome.Comes

namespace Session

variable {notify : Notifier μ} {regime : Regime} {master : Master} {first : Moment μ}
  {session after : Session μ} {change : Change} {planned : Planned} {region : Region} {edit : Edit}

/-! Range changes -/

section
variable (paces : notify.Paces regime)

include paces in
theorem report_settles (leads : regime.Leads first ⟨session, some change, regime.current⟩)
    (between : regime.between session.projection.listeners)
    (makes : session.projection.text.make? change = some after.projection.text)
    (unheard : session.Unheard after)
    (still : after.projection.broken = session.projection.broken)
    (idle : after.projection.planned = none) :
    (after.report notify master change).Settles regime first := by
  have made : regime.Leads first
      ⟨enqueue master .after change (after.record (.applied change)), none, regime.current⟩ :=
    leads.tail (.make master makes unheard still)
  have announced : (after.record (.applied change)).projection.announced = none :=
    congrArg (Option.map _) idle
  obtain ⟨stems, idles⟩ := paces.ranges master .after change (after.record (.applied change))
    (Projection.poised_of_idle idle) (unheard.listeners ▸ between)
  rw [announced] at stems
  exact ⟨stems.trans made, idles idle⟩

include paces in
theorem conclude_comes (stems : session.Stems regime first) :
    (conclude notify master session).Comes regime first := by
  unfold conclude
  split
  · next idle => exact .done ⟨stems, idle⟩
  · next planned found =>
    have opened : regime.Leads first ⟨session, some planned.change, regime.current⟩ := by
      have leads := stems.leads
      rw [Regime.moment, Projection.announced, found] at leads
      exact leads
    have suits : planned.Suits { session.projection with planned := none }.text :=
      stems.poised planned found
    rcases Projection.carryOut_cases suits with
      ⟨layout, text, done, makes⟩ | ⟨layout, text, fault, failed⟩
    · simp only [within, done, Outcome.map, Outcome.done, Outcome.andThen]
      exact .done (report_settles paces opened stems.between makes ⟨rfl, rfl, rfl⟩ rfl rfl)
    · simp only [within, failed, Outcome.map, Outcome.fail, Outcome.andThen]
      exact .stray rfl ⟨⟨session, _, opened, stems.between, rfl, rfl, rfl⟩, rfl⟩

include paces in
theorem undertake_comes (begun : first.session.projection.disposed = false)
    (suits : planned.Suits session.projection.text) (settles : session.Settles regime first) :
    (undertake notify master session planned).Comes regime first := by
  have opened : regime.Leads first ⟨enqueue master .before planned.change (session.update
      fun projection => { projection with planned := some planned }), some planned.change,
      regime.current⟩ :=
    settles.leads_none.tail (.announce master (regime.ranges _ suits.kind) ⟨⟨rfl, rfl, rfl⟩, rfl, id⟩)
  have told := (paces.ranges master .before planned.change (session.update
    fun projection => { projection with planned := some planned })
    (fun other same => Option.some.inj same ▸ suits) settles.between).1
  have heard := told.trans opened
  have live := heard.live begun
  unfold undertake
  simp only [Projection.closed?, live, Bool.false_eq_true, if_false]
  cases whole : (notify master .before planned.change (session.update
      fun projection => { projection with planned := some planned })).projection.broken with
  | true =>
    -- A listener ran into a fault.
    exact .stray rfl ⟨⟨_, _, heard.leads, heard.between, rfl, rfl, rfl⟩, rfl⟩
  | false => exact conclude_comes paces heard

include paces in
theorem undertakePlan_comes (begun : first.session.projection.disposed = false)
    {plan : Except Error Planned}
    (suits : ∀ planned, plan = .ok planned → planned.Suits session.projection.text)
    (settles : session.Settles regime first) :
    (undertakePlan notify master session plan).Comes regime first := by
  cases plan with
  | ok planned => exact undertake_comes paces begun (suits planned rfl) settles
  | error error => exact .fail settles error

include paces in
theorem fillGaps_comes (begun : first.session.projection.disposed = false) (edit : Option Edit)
    (limit rounds : Nat) (settles : session.Settles regime first) :
    (fillGaps notify master region edit limit rounds session).Comes regime first := by
  induction rounds generalizing session with
  | zero => exact .fail settles _
  | succ rounds ih =>
    unfold fillGaps
    split
    · exact .done settles
    · exact (undertakePlan_comes paces begun (fun _ => Projection.suits_of_planFill) settles).andThen
        fun session => ih

include paces in
theorem fill_comes (begun : first.session.projection.disposed = false) (edit : Option Edit)
    (settles : session.Settles regime first) :
    (fill notify master region edit session).Comes regime first :=
  fillGaps_comes paces begun edit _ _ settles

include paces in
theorem changeRanges_stems {operation : Session μ → Outcome (Session μ)}
    (goes : first.session.projection.disposed = false → ∀ session : Session μ,
      session.Settles regime first → (operation session).Comes regime first)
    (stems : session.Stems regime first) :
    (changeRanges notify master region session operation).state.Stems regime first ∧
      (session.projection.planned = none →
        (changeRanges notify master region session operation).state.projection.planned = none) := by
  unfold changeRanges Outcome.guarded
  split
  · next allowed =>
    obtain ⟨live, -⟩ := Projection.usable_of_refuses? (Option.or_eq_none_iff.mp allowed).1
    have settles : (breakOnFault ((conclude notify master session).andThen operation)).state.Settles
        regime first :=
      ((conclude_comes paces stems).andThen (goes (stems.begun live))).breakOnFault
    exact ⟨settles.toStems, fun _ => settles.idle⟩
  · exact ⟨stems, id⟩

include paces in
theorem request_stems (master : Master) (stems : session.Stems regime first) {request : Request}
    (keeps : request ≠ .dispose) :
    (session.request notify master request).1.Stems regime first ∧
      (session.projection.planned = none →
        (session.request notify master request).1.projection.planned = none) := by
  cases request with
  | add region =>
    exact changeRanges_stems paces (fun begun _ => fill_comes paces begun none) stems
  | remove region =>
    refine changeRanges_stems paces (fun begun session settles => ?_) stems
    split
    · exact .done settles
    · exact undertakePlan_comes paces begun (fun _ => Projection.suits_of_planRemoval) settles
  | reset region =>
    exact changeRanges_stems paces (fun begun _ =>
      undertakePlan_comes paces begun fun _ => Projection.suits_of_planReset) stems
  | setAutoExpand on =>
    exact ⟨stems.rest ⟨⟨rfl, rfl, rfl⟩, rfl, id⟩ rfl stems.poised, id⟩
  | subscribe =>
    exact ⟨⟨stems.leads.tail .subscribe, regime.anyone _ _ _ stems.between, stems.poised⟩, id⟩
  | unsubscribe listener =>
    exact ⟨⟨stems.leads.tail (.unsubscribe listener), regime.anyone _ _ _ stems.between,
      stems.poised⟩, id⟩
  | dispose => exact absurd rfl keeps

end

theorem request_opens {before : Projection} (pending : before.pending.isSome = true)
    (opens : session.Opens regime first before change) {request : Request}
    (keeps : request ≠ .dispose) :
    (session.request notify master request).1.Opens regime first before change := by
  have held : before.Held (session.request notify master request).1.projection :=
    request_keeps_held pending session request opens.held
  obtain ⟨error, refuses⟩ := opens.held.refuses pending
  cases request with
  | add _ | remove _ | reset _ =>
    rw [request_of_refused refuses (by trivial)]
    exact opens
  | setAutoExpand on =>
    exact ⟨opens.leads.tail (.rest ⟨⟨rfl, rfl, rfl⟩, rfl, id⟩), opens.between, held⟩
  | subscribe => exact ⟨opens.leads.tail .subscribe, regime.anyone _ _ _ opens.between, held⟩
  | unsubscribe listener =>
    exact ⟨opens.leads.tail (.unsubscribe listener), regime.anyone _ _ _ opens.between, held⟩
  | dispose => exact absurd rfl keeps

/-! Edits of the master -/

theorem Settles.forget (settles : session.Settles regime first) :
    (session.update Projection.forget).Settles regime first :=
  settles.rest ⟨⟨rfl, rfl, rfl⟩, rfl, id⟩ settles.idle

theorem Settles.note (settles : session.Settles regime first) (overflowed : Bool) :
    (session.note overflowed).Settles regime first :=
  settles.rest ⟨⟨rfl, rfl, rfl⟩, rfl, id⟩ settles.idle

theorem Settles.follow (settles : session.Settles regime first) (edit : Edit) :
    ((session.noteDrift edit).update fun projection => projection.forget.follow edit).Settles regime
      first :=
  settles.rest ⟨⟨rfl, rfl, rfl⟩, rfl, id⟩ settles.idle

theorem Settles.forwarding (settles : session.Settles regime first) {image origin : Region}
    {text : Text} {projection : Projection}
    (begins : session.projection.beginForwarding image text = .ok (origin, projection)) :
    Settles regime first { session with projection } := by
  obtain ⟨-, -, rfl⟩ := Projection.beginForwarding_ok begins
  exact settles.rest ⟨⟨rfl, rfl, rfl⟩, rfl, id⟩ settles.idle

theorem Settles.endForwarding (settles : session.Settles regime first) :
    (session.update Projection.endForwarding).Settles regime first :=
  settles.rest ⟨⟨rfl, rfl, rfl⟩, rfl, id⟩ settles.idle

theorem Settles.seeded (settles : session.Settles regime first) {edit : Edit} {outgoing : Outgoing}
    {pending : Option Pending} :
    Settles regime first { session with
      projection := { session.projection.seeded edit with outgoing, pending } } := by
  rw [Projection.seeded_eq session.projection edit]
  exact settles.rest ⟨⟨rfl, rfl, rfl⟩, rfl, id⟩ settles.idle

theorem takeForwarded_comes (settles : session.Settles regime first) :
    (takeForwarded edit session).Comes regime first := by
  simp only [takeForwarded, within, Outcome.map]
  split
  · exact .done settles.seeded
  · exact .fail settles.seeded _

theorem takeOther_settles (settles : session.Settles regime first) :
    (takeOther edit session).Settles regime first :=
  settles.seeded

section
variable (paces : notify.Paces regime)

include paces in
theorem takeShown_comes (begun : first.session.projection.disposed = false)
    (settles : session.Settles regime first) :
    (takeShown notify master edit session).Comes regime first := by
  refine (fill_comes paces begun _ settles).andThen fun session settles => ?_
  simp only [within, Outcome.map]
  split
  · exact .done (settles.rest ⟨⟨rfl, rfl, rfl⟩, rfl, id⟩ settles.idle)
  · exact .fail settles _

include paces in
theorem anticipate_settles (master : Master) (edit : Edit) (settles : session.Settles regime first) :
    (anticipate notify master edit session).state.Settles regime first := by
  cases disposed : session.projection.disposed with
  | true =>
    rw [anticipate, if_pos disposed]
    exact settles
  | false =>
    cases broken : session.projection.broken with
    | true =>
      simp only [anticipate, disposed, Projection.closed?, broken, Bool.false_eq_true, if_false,
        if_true, Outcome.guarded]
      exact settles
    | false =>
      have begun := settles.begun disposed
      rw [anticipate_of_idle disposed broken settles.idle]
      apply Outcome.Comes.breakOnFault
      simp only [prepare]
      split
      · exact takeForwarded_comes (settles.forget.note _)
      · split
        · exact takeShown_comes paces begun (settles.forget.note _)
        · exact .done (takeOther_settles (settles.forget.note _))

include paces in
theorem opens_of_pending (master : Master) (pending : session.projection.pending.isSome = true)
    (permitted : regime.changes change) (settles : session.Settles regime first) :
    (notify master .before change session).Opens regime first session.projection change := by
  have opened : regime.Leads first
      ⟨enqueue master .before change session, some change, regime.current⟩ :=
    settles.leads_none.tail (.announce master permitted (.refl session))
  have opens := paces.held session.projection pending master .before change session
    (.inl ⟨_, _, rfl⟩) settles.between
  exact { opens with leads := opened.trans opens.leads }

theorem Opens.live {before : Projection} (opens : session.Opens regime first before change)
    (begun : first.session.projection.disposed = false) : session.projection.disposed = false :=
  opens.leads.disposed_eq.trans begun

include paces in
theorem followAnnounced_comes (begun : first.session.projection.disposed = false)
    (permitted : ∀ pending change, session.projection.pending = some pending →
      pending.change = some change → regime.changes change)
    (settles : session.Settles regime first) :
    (followAnnounced notify master edit session).Comes regime first := by
  unfold followAnnounced
  cases known : session.projection.pending.bind (·.change) with
  | none =>
    have followed := settles.follow edit
    simp only [Option.elim_none, Option.isSome_none, Bool.false_eq_true, false_and, if_false, within,
      noteDrift, note, Projection.patch]
    rcases Projection.checked_cases (session.projection.forget.follow edit) with
      done | ⟨fault, failed⟩
    · rw [done]
      exact .done followed
    · rw [failed]
      exact .fail followed _
  | some change =>
    obtain ⟨⟨announced, _⟩, found, same⟩ := Option.bind_eq_some_iff.mp known
    simp only at same
    subst same
    have opens := opens_of_pending paces master (Option.isSome_of_eq_some found)
      (permitted _ change found rfl) settles
    have live := opens.live begun
    obtain ⟨options, listeners, same⟩ := opens.held.eq_of_live live
    have idle : (notify master .before change session).projection.planned = none := by
      rw [same]
      exact settles.idle
    simp only [Option.elim_some, Option.isSome_some, live, Bool.false_eq_true, and_false, if_false,
      within, noteDrift, note]
    rcases Projection.patch_cases ((notify master .before change session).projection.forget.follow
        edit) change with ⟨text, done, makes⟩ | ⟨text, fault, failed⟩
    · rw [done]
      exact .done (report_settles paces opens.leads opens.between makes ⟨rfl, rfl, rfl⟩ rfl idle)
    · rw [failed]
      exact .stray rfl ⟨⟨_, _, opens.leads, opens.between, rfl, rfl, rfl⟩, idle⟩

include paces in
theorem followUnannounced_comes (begun : first.session.projection.disposed = false)
    (contents : ∀ change : Change, change.edit = some edit → regime.changes change)
    (settles : session.Settles regime first) :
    (followUnannounced notify master edit session).Comes regime first := by
  have moved := settles.follow edit
  unfold followUnannounced
  generalize ((session.noteDrift edit).update fun projection => projection.forget.follow edit) =
    followed at *
  simp only
  split
  · exact .fail moved _
  · next text _ =>
    split
    · simp only [within]
      rcases Projection.checked_cases followed.projection with done | ⟨fault, failed⟩
      · rw [done]
        exact .done moved
      · rw [failed]
        exact .fail moved _
    · have awaiting : (followed.update fun projection => projection.await edit none).Settles regime
          first :=
        moved.rest ⟨⟨rfl, rfl, rfl⟩, rfl, id⟩ moved.idle
      have opens := opens_of_pending paces master rfl
        (contents ⟨.content, ⟨0, followed.projection.length⟩, text, followed.projection.layout.span,
          some edit⟩ rfl) awaiting
      have live := opens.live begun
      obtain ⟨options, listeners, same⟩ := opens.held.eq_of_live live
      generalize notify master .before _ _ = told at opens live same ⊢
      have idle : told.projection.planned = none := by
        rw [same]
        exact moved.idle
      have makes : told.projection.text.make? ⟨.content, ⟨0, followed.projection.length⟩, text,
          followed.projection.layout.span, some edit⟩ = some text := by
        rw [same]
        exact Text.make?_whole rfl rfl
      have stays : (told.update Projection.forget).projection.disposed ≠ true := by
        change told.projection.disposed ≠ true
        simp [live]
      rw [if_neg stays]
      simp only [within]
      rcases Projection.checked_cases { (told.update Projection.forget).projection with text } with
        done | ⟨fault, failed⟩
      · rw [done]
        exact .done (report_settles paces opens.leads opens.between makes ⟨rfl, rfl, rfl⟩ rfl idle)
      · rw [failed]
        exact .stray rfl ⟨⟨_, _, opens.leads, opens.between, rfl, rfl, rfl⟩, idle⟩

include paces in
theorem confirm_settles (master : Master)
    (contents : ∀ change : Change, change.edit = some edit → regime.changes change)
    (permitted : ∀ pending change, session.projection.pending = some pending →
      pending.edit.id = edit.id → pending.change = some change → regime.changes change)
    (settles : session.Settles regime first) :
    (confirm notify master edit session).state.Settles regime first := by
  cases disposed : session.projection.disposed with
  | true =>
    rw [confirm, if_pos disposed]
    exact settles
  | false =>
    cases broken : session.projection.broken with
    | true =>
      simp only [confirm, disposed, Projection.closed?, broken, Bool.false_eq_true, if_false, if_true,
        Outcome.guarded]
      exact settles
    | false =>
      have begun := settles.begun disposed
      rw [confirm_of_idle disposed broken settles.idle]
      apply Outcome.Comes.breakOnFault
      split
      · next matching =>
        refine followAnnounced_comes paces begun (fun pending change found => ?_) settles
        rw [found] at matching
        exact permitted pending change found (by simpa using matching)
      · exact followUnannounced_comes paces begun contents settles

section
variable (anything : ∀ change, regime.changes change)

include paces anything in
theorem editMaster_settles (master : Master) (region : Region) (text : Text)
    (settles : session.Settles regime first) :
    (editMaster notify master region text session).state.2.Settles regime first := by
  unfold editMaster
  split
  · exact settles
  · next edit prepared _ =>
    have heard : (anticipate notify prepared edit session).state.Settles regime first :=
      anticipate_settles paces _ _ settles
    cases result : anticipate notify prepared edit session with
    | mk after error =>
      rw [result] at heard
      cases error with
      | some error => exact heard
      | none =>
        simp only [Outcome.map, Outcome.andThen]
        split
        · exact heard.forget
        · exact confirm_settles paces _ (fun change _ => anything change)
            (fun _ change _ _ _ => anything change) heard

include paces anything in
theorem replace_settles (master : Master) (image : Region) (text : Text)
    (settles : session.Settles regime first) :
    (replace notify master image text session).state.2.Settles regime first := by
  unfold replace
  split
  · exact settles
  · next origin projection begins =>
    exact .endForwarding
      (editMaster_settles paces anything master origin text (settles.forwarding begins))

include paces anything in
/-- Whatever is done with a session is done step by step, unless everything is given up. -/
theorem act_settles (master : Master) {act : Act} (keeps : act ≠ .request .dispose)
    (settles : session.Settles regime first) :
    (session.act notify master act).1.Settles regime first := by
  cases act with
  | request request =>
    have stays : request ≠ .dispose := fun same => keeps (congrArg Act.request same)
    obtain ⟨stems, idles⟩ := request_stems paces master settles.toStems stays
    exact ⟨stems, idles settles.idle⟩
  | anticipate edit => exact anticipate_settles paces _ _ settles
  | confirm edit =>
    exact confirm_settles paces _ (fun change _ => anything change)
      (fun _ change _ _ _ => anything change) settles
  | editCopy region text => exact editMaster_settles paces anything master region text settles
  | replaceCopy image text => exact replace_settles paces anything master image text settles

end

end

end Session

end TextProjection
