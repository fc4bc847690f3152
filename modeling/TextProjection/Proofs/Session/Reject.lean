import TextProjection.Proofs.Session.Passive
import TextProjection.Proofs.Session.Refusal
import TextProjection.Proofs.Session.Silence

/-! Announcements of edits that reach past the end of the master text. Such an edit is found out only
at the hidden part that lies outside of the text, after the hidden parts before it were filled. So
nothing has happened exactly if that part is the only one.
-/

set_option autoImplicit false

namespace TextProjection

/-- The first hidden part of a region reaches past the end of the text only if the region does and
nothing else of it is hidden. -/
theorem Layout.WellFormed.first_hidden {layout : Layout} {size : Nat} {region gap : Region}
    {others : List Region} (wf : layout.WellFormed size)
    (hidden : layout.hidden region = gap :: others) :
    0 < gap.length ∧ (∀ position, gap.Covers position → ¬ layout.Shows position) ∧
      (gap.stop ≤ size ↔ region.Inside size ∨ others ≠ []) := by
  have word : region.stop < Offset.bound := by
    cases stop : region.stop? with
    | none => simp [Layout.hidden, stop] at hidden
    | some limit =>
      obtain ⟨rfl, word⟩ := Offset.add?_eq_some_iff.mp stop
      exact word
  have below {position : Nat} (shown : layout.Shows position) : position < size := by
    obtain ⟨pair, member, -, -, stop⟩ := shown
    exact Nat.lt_of_lt_of_le stop (wf.inside pair member)
  have runs := wf.runs_hidden word
  rw [hidden] at runs
  obtain ⟨⟨nonempty, start, stop⟩, -, all, ends, tail⟩ := runs
  refine ⟨nonempty, all, ?_⟩
  rw [Region.inside_iff]
  constructor
  · intro ahead
    by_contra neither
    obtain ⟨past, none⟩ := not_or.mp neither
    rw [not_not.mp none] at tail
    -- Without another hidden part, what stands behind the end of the text would have to be shown.
    have shown := not_not.mp (tail size ahead (Nat.lt_of_not_le past))
    exact absurd (below shown) (Nat.lt_irrefl _)
  · rintro (inside | several)
    · exact Nat.le_trans stop inside
    · obtain ⟨other, member⟩ := List.exists_mem_of_ne_nil _ several
      obtain ⟨solid, after, within⟩ := tail.inside other member
      have room : gap.stop < region.stop := by
        unfold Region.stop at *
        omega
      exact Nat.le_of_lt (below (not_not.mp (ends room)))

namespace Session

variable {μ : Type}

/-! What is in the journal stays there -/

def Recalls (past : List Entry) (session : Session μ) : Prop := past <+: session.journal

def Stirs (before after : Session μ) : Prop := ∃ entry, after.Recalls (before.journal ++ [entry])

section
variable {past : List Entry} {session : Session μ}

theorem Recalls.record (recalls : session.Recalls past) (entry : Entry) :
    (session.record entry).Recalls past :=
  recalls.trans (List.prefix_append _ _)

theorem stirs_record (session : Session μ) (entry : Entry) : session.Stirs (session.record entry) :=
  ⟨entry, List.prefix_rfl⟩

theorem Stirs.keep {middle after : Session μ} (stirs : session.Stirs middle)
    (keeps : ∀ past, middle.Recalls past → after.Recalls past) : session.Stirs after :=
  stirs.imp fun _ => keeps _

theorem Stirs.since {before after : Session μ} (stirs : session.Stirs after)
    (same : session.journal = before.journal) : before.Stirs after := by
  unfold Stirs at stirs ⊢
  rwa [← same]

theorem coupling_recalls {notify : Notifier μ}
    (tell : ∀ master phase change (session : Session μ), session.Recalls past →
      (notify master phase change session).Recalls past) :
    Coupling notify notify fun left right => left = right ∧ left.Recalls past :=
  .of_same (fun _ _ here _ => here) (fun _ _ here => here)
    (fun _ change here => here.record (.applied change))
    (fun master phase change session here => ⟨rfl, tell master phase change session here⟩)

theorem request_recalls {notify : Notifier μ} (master : Master) {request : Request}
    (casual : ¬ request.Ranges) (here : session.Recalls past) :
    (session.request notify master request).1.Recalls past := by
  cases request with
  | add _ | remove _ | reset _ => exact absurd trivial casual
  | setAutoExpand _ | subscribe | unsubscribe _ | dispose => exact here

theorem enqueue_recalls (master : Master) (phase : Phase) (change : Change)
    (here : session.Recalls past) : (enqueue master phase change session).Recalls past :=
  enqueue_upholds (fun _ _ _ here => here) master phase change here

theorem perform_recalls (master : Master) (reaction : Reaction μ) (here : session.Recalls past) :
    (perform master reaction session).Recalls past := by
  induction reaction generalizing session with
  | rest memory => exact here
  | act act next ih =>
    rw [perform_act]
    split
    · exact here
    · have acted : (session.act enqueue master act).1.Recalls past :=
        (act_both (coupling_recalls fun master phase change _ => enqueue_recalls master phase change)
          master ⟨rfl, here⟩ fun _ _ casual => ⟨⟨rfl, request_recalls master casual here⟩, rfl⟩).1.2
      exact ih _ _ acted

theorem upholds_recalls (audience : Audience μ) (past : List Entry) :
    audience.Upholds (Recalls past) where
  queues _ _ _ here := here
  hands _ _ _ _ here _ := here.record _
  reacts _ _ here _ := perform_recalls _ _ here

theorem coupling_publish (audience : Audience μ) (past : List Entry) :
    Coupling (publish audience) (publish audience) fun left right => left = right ∧ left.Recalls past :=
  coupling_recalls fun master phase change _ =>
    publish_upholds (upholds_recalls audience past) master phase change

end

/-! Something happens once a change is announced -/

section
variable {audience : Audience μ} {master : Master} {session : Session μ}

theorem deliver_stirs (notification : Notification)
    (somebody : session.projection.listeners.ids ≠ []) :
    session.Stirs (deliver audience master notification session) := by
  obtain ⟨listener, others, ids⟩ := List.exists_cons_of_ne_nil somebody
  have told : session.Stirs (deliverTo audience master notification session listener) := by
    rw [deliverTo, if_pos (by simp [ids])]
    exact (stirs_record session (.delivered ⟨listener, notification, master, session.projection⟩)).keep
      fun _ => perform_recalls master _
  rw [deliver, ids, List.foldl_cons]
  exact told.keep fun past here => List.foldlRecOn (motive := Recalls past) _ _ here
    fun _ here listener _ =>
      deliverTo_upholds (upholds_recalls audience past) master notification listener here

theorem deliverNext_stirs (somebody : session.projection.listeners.ids ≠ [])
    (waiting : session.projection.listeners.queue ≠ []) :
    session.Stirs (deliverNext audience master session) := by
  obtain ⟨notification, rest, queue⟩ := List.exists_cons_of_ne_nil waiting
  simp only [deliverNext, queue]
  generalize takes : (session.update fun projection => _) = taken
  have told : taken.Stirs (deliver audience master notification taken) :=
    deliver_stirs notification (takes ▸ somebody)
  exact told.since (takes ▸ rfl)

/-- Unless notifications are being delivered, whoever listens is told. -/
theorem publish_stirs (phase : Phase) (change : Change)
    (somebody : session.projection.listeners.ids ≠ [])
    (free : session.projection.listeners.dispatching = false) :
    session.Stirs (publish audience master phase change session) := by
  have nonempty : session.projection.listeners.ids.isEmpty = false := by simpa using somebody
  unfold publish enqueue
  simp only [nonempty, free, Bool.false_eq_true, or_self, if_false]
  generalize waits : (setDispatching true _ : Session μ) = waiting
  have ids : waiting.projection.listeners.ids ≠ [] := by
    rw [← waits]
    exact somebody
  have queued : waiting.projection.listeners.queue ≠ [] := by
    rw [← waits]
    exact List.append_ne_nil_of_right_ne_nil _ (List.cons_ne_nil _ _)
  have told : waiting.Stirs (deliverNext audience master waiting) := deliverNext_stirs ids queued
  obtain ⟨notification, rest, queue⟩ := List.exists_cons_of_ne_nil queued
  refine (told.since (waits ▸ rfl)).keep fun past here => ?_
  have upholds := upholds_recalls audience past
  simp only [drain, queue, List.isEmpty_cons, Bool.false_eq_true, if_false, List.length_cons,
    deliverMany]
  exact drain_upholds upholds master _ (deliverMany_upholds upholds master _ here)

theorem conclude_stirs {planned : Planned} (announced : session.projection.planned = some planned)
    (accepted : (conclude (publish audience) master session).error = none) :
    session.Stirs (conclude (publish audience) master session).state := by
  simp only [conclude, announced] at accepted ⊢
  generalize makes : session.within _ = made at accepted ⊢
  have journal : made.state.journal = session.journal := by
    rw [← makes]
    rfl
  obtain ⟨state, error⟩ := made
  cases error with
  | some error => cases accepted
  | none =>
    exact ((stirs_record state (.applied planned.change)).since journal).keep fun past =>
      publish_upholds (upholds_recalls audience past) master .after planned.change

/-- Once a range change was announced, somebody was told of it or it was made, unless it failed. -/
theorem undertake_stirs {planned : Planned}
    (accepted : (undertake (publish audience) master session planned).error = none) :
    session.Stirs (undertake (publish audience) master session planned).state := by
  unfold undertake at accepted ⊢
  generalize announces : session.update (fun projection => { projection with planned := some planned }) =
    announced at accepted ⊢
  have journal : announced.journal = session.journal := by
    rw [← announces]
    rfl
  by_cases silent : announced.projection.listeners.ids = [] ∨
      announced.projection.listeners.dispatching = true
  · -- Nobody hears of it, so it is still to be made.
    have told : publish audience master .before planned.change announced =
        enqueue master .before planned.change announced := by
      rw [publish, if_pos (by simpa using silent)]
    have queued : (enqueue master .before planned.change announced).journal = announced.journal ∧
        (enqueue master .before planned.change announced).projection.planned = some planned := by
      rw [← announces]
      unfold enqueue
      split <;> exact ⟨rfl, rfl⟩
    simp only [told] at accepted ⊢
    split at accepted
    · cases accepted
    · exact (conclude_stirs queued.2 accepted).since (queued.1.trans journal)
  · obtain ⟨somebody, free⟩ := not_or.mp silent
    have told : announced.Stirs (publish audience master .before planned.change announced) :=
      publish_stirs .before planned.change somebody (by simpa using free)
    simp only at accepted ⊢
    split at accepted
    · cases accepted
    · exact (told.since journal).keep fun past here =>
        (conclude_both ((coupling_publish audience past).pairing master) ⟨rfl, here⟩).state.2

end

/-! Rejection -/

section
variable {notify : Notifier μ} {master : Master} {session : Session μ} {edit : Edit}
  {outside : Region} {length : Nat}

/-- An announcement is rejected for its location only while hidden parts are being filled. -/
theorem fill_of_rejected (idle : session.projection.planned = none)
    (rejected : (anticipate notify master edit session).error = some (.outsideText outside length)) :
    anticipate notify master edit session =
      fill notify master edit.region (some edit)
        ((session.update Projection.forget).noteTouch edit) := by
  have refusal : (Error.outsideText outside length).isRefusal = true := rfl
  cases closed : session.projection.closed? with
  | some error =>
    rw [anticipate_of_closed closed] at rejected
    exact absurd refusal (by simp [(closed_faulted session closed).accepted _ rejected])
  | none =>
    obtain ⟨live, whole⟩ := Projection.usable_of_closed? closed
    rw [anticipate_of_idle live whole idle] at rejected ⊢
    rw [error_breakOnFault] at rejected
    have sane : ¬ ((prepare notify master edit session).error.any Error.isFault = true) := by
      simp [rejected, Error.isFault]
    rw [breakOnFault, if_neg sane]
    unfold prepare at rejected ⊢
    simp only at rejected ⊢
    split_ifs at rejected ⊢
    · exact absurd refusal (by simp [(takeForwarded_faulted _ edit).accepted _ rejected])
    · unfold takeShown at rejected ⊢
      generalize fill notify master edit.region (some edit) _ = filled at rejected ⊢
      obtain ⟨state, error⟩ := filled
      cases error with
      | some error => rfl
      | none =>
        -- What comes after the last hidden part can only fail for a fault.
        simp only [Outcome.andThen, within, Outcome.map] at rejected
        split at rejected <;> cases rejected
    · cases rejected

end

section
variable {audience : Audience μ} {master : Master} {session : Session μ} {edit : Edit} {region : Region}
  {outside : Region} {length : Nat}

theorem fill_of_past {gap : Region} {others : List Region}
    (hidden : session.projection.layout.hidden region = gap :: others)
    (past : ¬ gap.Inside master.length) :
    (fill (publish audience) master region (some edit) session).state = session := by
  obtain ⟨error, plan⟩ : ∃ error, session.projection.planFill master gap (some edit) = .error error :=
    (Projection.planFill_outside past (some edit)).imp fun _ => And.left
  simp only [fill, fillGaps, Layout.firstHidden?, hidden, List.head?_cons, plan, undertakePlan,
    Outcome.fail_andThen]
  rfl

/-- A hidden part inside of the text is filled, or somebody is told that it will be. -/
theorem fill_stirs (wf : session.projection.WellFormed master.text)
    {gap : Region} {others : List Region}
    (hidden : session.projection.layout.hidden region = gap :: others)
    (isGap : session.projection.layout.IsGap master.length gap)
    (rejected : (fill (publish audience) master region (some edit) session).error =
      some (.outsideText outside length)) :
    session.Stirs (fill (publish audience) master region (some edit) session).state := by
  obtain ⟨planned, plan, -⟩ := wf.exists_planFill isGap (some edit)
  simp only [fill, fillGaps, Layout.firstHidden?, hidden, List.head?_cons, plan, undertakePlan]
    at rejected ⊢
  have accepted := undertake_accepted (publish audience) master session planned
  have stirs := @undertake_stirs μ audience master session planned
  generalize undertake (publish audience) master session planned = first at rejected accepted stirs ⊢
  obtain ⟨middle, error⟩ := first
  cases error with
  | some error =>
    obtain rfl := Option.some.inj rejected
    exact Bool.noConfusion (accepted _ rfl)
  | none =>
    exact (stirs rfl).keep fun past here =>
      (fillGaps_both ((coupling_publish audience past).pairing master) (some edit) _ _
        ⟨rfl, here⟩).state.2

/-- An announcement that is rejected for its location leaves all as it was, but for an edit that was
announced before, if the region reaches past the end of the text and a single part of it is hidden.
Otherwise something was changed or told before the edit was rejected. -/
theorem anticipate_rejected (wf : session.projection.WellFormed master.text)
    (fits : master.length < Offset.bound) (idle : session.projection.planned = none)
    (rejected : (anticipate (publish audience) master edit session).error =
      some (.outsideText outside length)) :
    let after := (anticipate (publish audience) master edit session).state
    let single := ¬ edit.region.Inside master.length ∧
      ∃ gap, session.projection.layout.hidden edit.region = [gap]
    (single → after = session.update Projection.forget) ∧ (¬ single → session.Stirs after) := by
  have filling := fill_of_rejected idle rejected
  rw [filling] at rejected ⊢
  have forgotten : (session.update Projection.forget).projection.WellFormed master.text :=
    wf.congr rfl rfl
  cases hidden : session.projection.layout.hidden edit.region with
  | nil =>
    have none : ((session.update Projection.forget).noteTouch edit).projection.layout.hidden
        edit.region = [] := hidden
    simp [fill, fillGaps, Layout.firstHidden?, none, Outcome.done] at rejected
  | cons gap others =>
    -- What is hidden of a region is looked for only if its end is a word.
    have word : edit.region.stop < Offset.bound := by
      by_contra large
      simp [Layout.hidden, Region.stop?_eq_none large] at hidden
    rw [noteTouch_eq forgotten fits word] at rejected ⊢
    obtain ⟨nonempty, unshown, inside⟩ := wf.layout.first_hidden hidden
    refine ⟨?_, fun touched => ?_⟩
    · rintro ⟨outside, _, alone⟩
      obtain ⟨rfl, rfl⟩ := List.cons.inj alone
      have past : ¬ gap.Inside master.length := fun within =>
        (inside.mp (Region.inside_iff.mp within)).elim outside (absurd rfl)
      exact fill_of_past hidden past
    · have ahead : gap.stop ≤ master.length := inside.mpr (by
        by_contra neither
        obtain ⟨outside, none⟩ := not_or.mp neither
        exact touched ⟨outside, gap, by rw [not_not.mp none]⟩)
      exact fill_stirs forgotten hidden ⟨nonempty, ahead, unshown⟩ rejected

end

def listening : Session Nat where
  projection := {
    layout := Layout.twoApart
    text := ['c', 'd', 'e', 'h', 'i']
    listeners := { ids := [0], nextId := 1 } }
  memory := 0
  allowance := 0

/-- All that is hidden of the region stands behind the last fragment. -/
theorem anticipate_rejected_behind :
    let master : Master := { text := ['a', 'b', 'c', 'd', 'e', 'f', 'g', 'h', 'i', 'j'] }
    let rejected := anticipate (publish .counting) master ⟨0, ⟨8, 5⟩, []⟩ listening
    rejected.error = some (.outsideText ⟨9, 4⟩ 10) ∧ rejected.state = listening := by
  have rejected : (anticipate (publish .counting)
      { text := ['a', 'b', 'c', 'd', 'e', 'f', 'g', 'h', 'i', 'j'] } ⟨0, ⟨8, 5⟩, []⟩ listening).error =
        some (.outsideText ⟨9, 4⟩ 10) := by decide
  obtain ⟨untouched, -⟩ := anticipate_rejected ⟨Layout.twoApart_wellFormed, by decide⟩ (by decide) rfl
    rejected
  exact ⟨rejected, untouched ⟨by decide, ⟨9, 4⟩, by decide⟩⟩

/-- The master was shortened after the edit was prepared. What is hidden in front of the fragment is
filled and told before the edit is rejected. -/
theorem stirred_of_rejected :
    let master : Master := { text := ['a', 'b', 'c', 'd', 'e', 'f'] }
    let session : Session Nat := { listening with projection := { listening.projection with
      layout := ⟨[⟨⟨2, 3, false⟩, ⟨0, 3, false⟩⟩]⟩, text := ['c', 'd', 'e'] } }
    let rejected := anticipate (publish .counting) master ⟨0, ⟨0, 10⟩, []⟩ session
    session.projection.WellFormed master.text ∧ rejected.error = some (.outsideText ⟨5, 5⟩ 6) ∧
      rejected.state.projection.layout = ⟨[⟨⟨0, 5, false⟩, ⟨0, 5, false⟩⟩]⟩ ∧
      rejected.state.projection.text = ['a', 'b', 'c', 'd', 'e'] ∧
      rejected.state.notices.map (·.2.phase) = [.before, .after] := by
  refine ⟨⟨⟨by decide, by simp [Layout.Tiles], by decide, by decide, by decide⟩, by decide⟩, ?_⟩
  decide

end Session

end TextProjection
