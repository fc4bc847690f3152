import TextProjection.Proofs.Session.Edit

/-! Refusals. A call that is refused, for its arguments or for its moment, changes nothing and tells
nobody anything. Most refusals come before anything else is done; where a hidden part of a region
turns out not to lie inside the text, others may have been filled by then, so the parts have to lie
inside the region.
-/

set_option autoImplicit false

namespace TextProjection

/-- The call is refused, for its arguments or for its moment. -/
def Error.isRefusal : Error → Bool
  | .outsideText .. | .notShown _ | .editPending | .unknownProjection _ => true
  | _ => false

theorem Error.isRefusal_of_isFault {error : Error} (fault : error.isFault = true) :
    error.isRefusal = false := by
  cases error <;> first | rfl | cases fault

namespace Outcome

variable {σ τ : Type} {outcome : Outcome σ} {before : σ}

def Intact (before : σ) (outcome : Outcome σ) : Prop :=
  ∀ error, outcome.error = some error → error.isRefusal = true → outcome.state = before

/-- The operation was not refused, though it may have failed. -/
def Accepted (outcome : Outcome σ) : Prop :=
  ∀ error, outcome.error = some error → error.isRefusal = false

def Faulted (outcome : Outcome σ) : Prop :=
  ∀ error, outcome.error = some error → error.isFault = true

theorem Faulted.accepted (faulted : outcome.Faulted) : outcome.Accepted :=
  fun error failed => Error.isRefusal_of_isFault (faulted error failed)

theorem Faulted.done (state : σ) : (Outcome.done state).Faulted := nofun

theorem Faulted.fail (state : σ) (fault : Fault) :
    (Outcome.fail state (.inconsistent fault)).Faulted := by
  intro error failed
  obtain rfl := Option.some.inj failed
  rfl

theorem Faulted.andThen {next : σ → Outcome σ} (first : outcome.Faulted)
    (second : ∀ state, (next state).Faulted) : (outcome.andThen next).Faulted := by
  obtain ⟨state, error⟩ := outcome
  cases error with
  | none => exact second state
  | some error => exact first

theorem Faulted.map (faulted : outcome.Faulted) (whole : σ → τ) : (outcome.map whole).Faulted :=
  faulted

theorem Accepted.intact (accepted : outcome.Accepted) : outcome.Intact before := by
  intro error failed refusal
  exact absurd refusal (by simp [accepted error failed])

theorem Accepted.done (state : σ) : (Outcome.done state).Accepted := nofun

theorem Accepted.fail {state : σ} {error : Error} (accepts : error.isRefusal = false) :
    (Outcome.fail state error).Accepted := by
  intro found failed
  obtain rfl := Option.some.inj failed
  exact accepts

theorem Accepted.andThen (good : σ → Prop) {next : σ → Outcome σ} (first : outcome.Accepted)
    (leaves : outcome.error = none → good outcome.state)
    (second : ∀ state, good state → (next state).Accepted) : (outcome.andThen next).Accepted := by
  obtain ⟨state, error⟩ := outcome
  cases error with
  | none => exact second state (leaves rfl)
  | some error => exact first

theorem Intact.fail (before : σ) (error : Error) : (Outcome.fail before error).Intact before :=
  fun _ _ _ => rfl

theorem Intact.map (intact : outcome.Intact before) (whole : σ → τ) :
    (outcome.map whole).Intact (whole before) := by
  intro error failed refusal
  exact congrArg whole (intact error failed refusal)

theorem Intact.guarded {objection : Option Error} {next : σ → Outcome σ}
    (allowed : objection = none → (next before).Intact before) :
    (Outcome.guarded objection before next).Intact before := by
  cases objection with
  | none => exact allowed rfl
  | some error => exact .fail before error

theorem error_of_reply {error : Error} (replied : outcome.reply.2 = .error error) :
    outcome.error = some error := by
  obtain ⟨state, found⟩ := outcome
  cases found with
  | none => cases replied
  | some found => exact congrArg some (Except.error.inj replied)

end Outcome

variable {μ : Type}

theorem Session.error_breakOnFault (outcome : Outcome (Session μ)) :
    (breakOnFault outcome).error = outcome.error := by
  unfold breakOnFault
  split <;> rfl

theorem Outcome.Accepted.breakOnFault {outcome : Outcome (Session μ)} (accepted : outcome.Accepted) :
    (Session.breakOnFault outcome).Accepted := by
  intro error failed
  rw [Session.error_breakOnFault] at failed
  exact accepted error failed

theorem Outcome.Faulted.breakOnFault {outcome : Outcome (Session μ)} (faulted : outcome.Faulted) :
    (Session.breakOnFault outcome).Faulted := by
  intro error failed
  rw [Session.error_breakOnFault] at failed
  exact faulted error failed

theorem Outcome.Intact.breakOnFault {before : Session μ} {outcome : Outcome (Session μ)}
    (intact : outcome.Intact before) : (Session.breakOnFault outcome).Intact before := by
  intro error failed refusal
  rw [Session.error_breakOnFault] at failed
  have sane : outcome.error.any Error.isFault = false := by
    rw [failed]
    cases fault : error.isFault with
    | false => exact fault
    | true => exact absurd refusal (by simp [Error.isRefusal_of_isFault fault])
  rw [Session.breakOnFault, if_neg (by simp [sane])]
  exact intact error failed refusal

/-! What fails for a fault only -/

namespace Projection

theorem checked_faulted (projection : Projection) : projection.checked.Faulted := by
  intro error failed
  obtain ⟨fault, -, rfl⟩ := Option.map_eq_some_iff.mp failed
  rfl

theorem carryOut_faulted (projection : Projection) (planned : Planned) :
    (projection.carryOut planned).Faulted := by
  unfold carryOut
  simp only
  split
  · exact .fail _ _
  · split
    · exact .fail _ _
    · exact checked_faulted _

theorem patch_faulted (projection : Projection) (change : Option Change) :
    (projection.patch change).Faulted := by
  cases change with
  | none => exact checked_faulted projection
  | some change =>
    unfold patch
    simp only
    split
    · exact .fail _ _
    · exact checked_faulted _

/-- How a projection is found between two calls. No range change is under way. If it can be used,
nothing is being forwarded, and `rest` holds but for an edit that may be pending. -/
structure Between (rest : Projection → Prop) (projection : Projection) : Prop where
  idle : projection.planned = none
  home : projection.closed? = none → projection.outgoing = .none
  usable : projection.closed? = none → rest projection.forget

theorem SoundIdle.between {master : Text} {projection : Projection}
    (sound : projection.SoundIdle master .none) : projection.Between (SoundIdle master .none) where
  idle := sound.idle
  home usable := sound.forwards (usable_of_closed? usable).1
  usable _ := sound.forget_eq.symm ▸ sound

end Projection

namespace Session

variable {notify : Notifier μ} {master : Master} {session : Session μ} {edit : Edit}
  {region : Region}

section
variable (notify : Notifier μ) (master : Master) (session : Session μ) (edit : Edit)

theorem conclude_faulted : (conclude notify master session).Faulted := by
  unfold conclude
  split
  · exact .done session
  · next planned _ =>
    apply Outcome.Faulted.andThen
    · exact (Projection.carryOut_faulted _ planned).map _
    · intro after
      exact .done _

theorem takeForwarded_faulted : (takeForwarded edit session).Faulted := by
  unfold takeForwarded within
  apply Outcome.Faulted.map
  simp only
  split
  · exact .done _
  · exact .fail _ _

theorem followAnnounced_faulted : (followAnnounced notify master edit session).Faulted := by
  unfold followAnnounced
  simp only
  split
  · exact .done _
  · apply Outcome.Faulted.andThen
    · exact (Projection.patch_faulted _ _).map _
    · intro after
      exact .done _

theorem followUnannounced_faulted : (followUnannounced notify master edit session).Faulted := by
  unfold followUnannounced
  simp only
  split
  · exact .fail _ _
  · split
    · exact (Projection.checked_faulted _).map _
    · split
      · exact .done _
      · apply Outcome.Faulted.andThen
        · exact (Projection.checked_faulted _).map _
        · intro after
          exact .done _

theorem closed_faulted {error : Error} (closed : session.projection.closed? = some error) :
    Outcome.Faulted ⟨session, if session.projection.disposed then none else some error⟩ := by
  intro found failed
  unfold Projection.closed? at closed
  split at failed
  · cases failed
  · next live =>
    obtain rfl := Option.some.inj failed
    rw [if_neg live] at closed
    split at closed
    · obtain rfl := Option.some.inj closed
      rfl
    · cases closed

theorem confirm_faulted : (confirm notify master edit session).Faulted := by
  cases closed : session.projection.closed? with
  | some error =>
    rw [confirm_of_closed closed]
    exact closed_faulted session closed
  | none =>
    unfold confirm
    split
    · exact .done session
    · rw [closed]
      apply Outcome.Faulted.breakOnFault
      apply Outcome.Faulted.andThen (conclude_faulted notify master session)
      intro after
      split
      · exact followAnnounced_faulted notify master after edit
      · exact followUnannounced_faulted notify master after edit

end

/-! What may be refused -/

theorem undertake_accepted (notify : Notifier μ) (master : Master) (session : Session μ)
    (planned : Planned) : (undertake notify master session planned).Accepted := by
  unfold undertake
  simp only
  split
  · next closed =>
    apply Outcome.Accepted.fail
    unfold Projection.closed? at closed
    split_ifs at closed <;> cases closed <;> rfl
  · exact (conclude_faulted notify master _).accepted

section
variable {sound rest : Projection → Prop} (maintains : notify.Maintains master sound rest)

include maintains in
/-- Filling the hidden parts of a region of the master is not refused half-way, as they all lie inside
the region. -/
theorem fillGaps_accepted (inside : region.Inside master.length)
    (edit : Option Edit) (limit rounds : Nat) (holds : rest session.projection) :
    (fillGaps notify master region edit limit rounds session).Accepted := by
  have bound := Region.inside_iff.mp inside
  induction rounds generalizing session with
  | zero => exact .fail rfl
  | succ rounds ih =>
    rw [fillGaps]
    rcases maintains.hides _ region holds with
      ⟨none, -⟩ | ⟨gap, others, some, nonempty, -, stop, hidden⟩
    · simp only [Layout.firstHidden?, none, List.head?_nil]
      exact .done session
    · simp only [Layout.firstHidden?, some, List.head?_cons]
      rcases maintains.fills _ gap edit holds nonempty hidden with
        ⟨planned, plan, announced⟩ | ⟨outside, -⟩
      · simp only [plan, undertakePlan]
        exact (undertake_accepted notify master session planned).andThen _
          (undertake_ends maintains announced).good fun session holds => ih holds
      · exact absurd (Region.inside_iff.mpr (Nat.le_trans stop bound)) outside

/-- An operation that may be refused is refused as it is, since no range change is to be finished
first. -/
theorem changeRanges_intact {operation : Session μ → Outcome (Session μ)}
    (idle : session.projection.planned = none)
    (operates : session.projection.refuses? = none → region.Inside master.length →
      (operation session).Intact session) :
    (changeRanges notify master region session operation).Intact session := by
  unfold changeRanges
  apply Outcome.Intact.guarded
  intro allowed
  obtain ⟨opened, inside⟩ := Option.or_eq_none_iff.mp allowed
  rw [conclude_of_idle idle, Outcome.done_andThen]
  exact (operates opened (Region.outside?_eq_none_iff.mp inside)).breakOnFault

theorem rest_of_open (between : session.projection.Between rest)
    (opened : session.projection.refuses? = none) : rest session.projection := by
  obtain ⟨usable, free⟩ := Option.or_eq_none_iff.mp opened
  have forgotten : session.projection.forget = session.projection := by
    unfold Projection.forget
    rw [← Option.map_eq_none_iff.mp free]
  rw [← forgotten]
  exact between.usable usable

include maintains in
theorem reset_accepted (between : session.projection.Between rest)
    (opened : session.projection.refuses? = none) (inside : region.Inside master.length) :
    (reset notify master region session).Accepted := by
  obtain ⟨planned, plan, announced⟩ := maintains.resets _ region (rest_of_open between opened) inside
  unfold reset changeRanges
  rw [opened, Master.outside?_of_inside inside, Option.or_none, Outcome.guarded,
    conclude_of_idle between.idle, Outcome.done_andThen, plan]
  exact (undertake_accepted notify master session planned).breakOnFault

include maintains in
theorem request_intact (between : session.projection.Between rest) (request : Request) {error : Error}
    (replied : (session.request notify master request).2 = .error error)
    (refusal : error.isRefusal = true) : (session.request notify master request).1 = session := by
  have refused {outcome : Outcome (Session μ)} (intact : outcome.Intact session)
      (replied : outcome.reply.2 = .error error) : outcome.reply.1 = session :=
    intact error (Outcome.error_of_reply replied) refusal
  cases request with
  | add region =>
    apply refused _ replied
    apply changeRanges_intact between.idle
    intro opened inside
    exact (fillGaps_accepted maintains inside none _ _
      (rest_of_open between opened)).intact
  | remove region =>
    apply refused _ replied
    apply changeRanges_intact between.idle
    intro opened inside
    split
    · exact (Outcome.Accepted.done session).intact
    · next solid =>
      have nonempty : 0 < region.length := by
        simpa [Region.isEmpty, Nat.pos_iff_ne_zero] using solid
      rcases maintains.removes _ region (rest_of_open between opened) nonempty inside with
        ⟨planned, plan, announced⟩ | plan
      · rw [plan]
        exact (undertake_accepted notify master session planned).intact
      · rw [plan]
        exact .fail session _
  | reset region =>
    apply refused _ replied
    apply changeRanges_intact between.idle
    intro opened inside
    obtain ⟨planned, plan, announced⟩ :=
      maintains.resets _ region (rest_of_open between opened) inside
    rw [plan]
    exact (undertake_accepted notify master session planned).intact
  | setAutoExpand _ | subscribe | unsubscribe _ | dispose => cases replied

include maintains in
theorem anticipate_accepted (inside : edit.region.Inside master.length)
    (idle : session.projection.planned = none)
    (usable : session.projection.closed? = none → session.isForwarding = false →
      rest session.projection.forget) :
    (anticipate notify master edit session).Accepted := by
  cases closed : session.projection.closed? with
  | some error =>
    rw [anticipate_of_closed closed]
    exact (closed_faulted session closed).accepted
  | none =>
    obtain ⟨live, whole⟩ := Projection.usable_of_closed? closed
    rw [anticipate_of_idle live whole idle]
    apply Outcome.Accepted.breakOnFault
    unfold prepare
    simp only
    split
    · exact (takeForwarded_faulted _ edit).accepted
    · next still =>
      have holds := usable closed (Bool.eq_false_of_not_eq_true still)
      split
      · unfold takeShown
        -- Once all of the region is shown, only a fault can still be found.
        apply Outcome.Accepted.andThen fun _ => True
        · exact fillGaps_accepted maintains inside (some edit) _ _ holds
        · exact fun _ => trivial
        · intro after _
          apply Outcome.Faulted.accepted
          apply Outcome.Faulted.map
          simp only
          split
          · exact .done _
          · exact .fail _ _
      · exact .done _

end

section
variable {sound rest : Projection → Prop}
  (maintains : ∀ other : Master, other.text = master.text → notify.Maintains other sound rest)
  {image : Region} {text : Text}

include maintains

theorem editMaster_intact (idle : session.projection.planned = none)
    (usable : session.projection.closed? = none → session.isForwarding = false →
      rest session.projection.forget) :
    (editMaster notify master region text session).Intact (master, session) := by
  by_cases inside : region.Inside master.length
  · apply Outcome.Accepted.intact
    have announced : (anticipate notify { master with nextEdit := master.nextEdit + 1 }
        ⟨master.nextEdit, region, text⟩ session).Accepted :=
      anticipate_accepted (maintains _ rfl) inside idle usable
    unfold editMaster
    simp only [Master.prepare_eq inside]
    apply Outcome.Accepted.andThen
      fun state => state.1 = { master with nextEdit := master.nextEdit + 1 }
    · exact announced
    · exact fun _ => rfl
    · rintro ⟨prepared, after⟩ rfl
      simp only [Master.commit_prepared inside]
      exact ((confirm_faulted notify _ after _).map _).accepted
  · unfold editMaster
    simp only [Master.prepare_eq_error inside]
    exact .fail _ _

/-- So is an edit of the projection. What it had to remember for the time being is forgotten then. -/
theorem replace_intact (between : session.projection.Between rest) :
    (replace notify master image text session).Intact (master, session) := by
  unfold replace
  split
  · exact .fail _ _
  · next origin forwarding begins =>
    obtain ⟨opened, -, rfl⟩ := Projection.beginForwarding_ok begins
    obtain ⟨usable, pending⟩ := Option.or_eq_none_iff.mp opened
    have free : session.projection.pending = none := Option.map_eq_none_iff.mp pending
    have restored (projection : Projection) (home : projection.outgoing = .none)
        (free : projection.pending = none) (outgoing : Outgoing) :
        { projection with outgoing := outgoing }.endForwarding = projection := by
      cases projection
      simp only at home free
      simp [Projection.endForwarding, home, free]
    have same : ({ session with projection := { session.projection with
        outgoing := .forwarding (some ⟨.content, image, text, origin, none⟩) } } :
          Session μ).update Projection.endForwarding = session := by
      simp only [update, restored session.projection (between.home usable) free]
    have edited (begun : Session μ) (idle : begun.projection.planned = none)
        (forwarding : begun.isForwarding = true) :
        (editMaster notify master origin text begun).Intact (master, begun) :=
      editMaster_intact maintains idle fun _ still => by cases forwarding.symm.trans still
    have mapped := (edited { session with projection := { session.projection with
        outgoing := .forwarding (some ⟨.content, image, text, origin, none⟩) } } between.idle
      rfl).map fun edited : Master × Session μ => (edited.1, edited.2.update Projection.endForwarding)
    simp only [same] at mapped
    exact mapped

/-- An act that is refused changes nothing, unless it announces an edit that does not lie inside the
master text. -/
theorem act_intact (between : session.projection.Between rest) {act : Act}
    (fitting : ∀ edit, act = .anticipate edit → edit.region.Inside master.length) {error : Error}
    (replied : (session.act notify master act).2 = .error error) (refusal : error.isRefusal = true) :
    (session.act notify master act).1 = session := by
  have refused {outcome : Outcome (Session μ)} (intact : outcome.Intact session)
      (replied : outcome.reply.2 = .error error) : outcome.reply.1 = session :=
    intact error (Outcome.error_of_reply replied) refusal
  cases act with
  | request request => exact request_intact (maintains master rfl) between request replied refusal
  | anticipate edit =>
    apply refused _ replied
    exact (anticipate_accepted (maintains master rfl) (fitting edit rfl) between.idle
      fun usable _ => between.usable usable).intact
  | confirm edit =>
    apply refused _ replied
    exact (confirm_faulted notify master session edit).accepted.intact
  | editCopy region text =>
    apply refused _ replied
    exact (editMaster_intact maintains between.idle
      fun usable _ => between.usable usable).map (·.2)
  | replaceCopy image text =>
    apply refused _ replied
    exact (replace_intact maintains between).map (·.2)

end

end Session

end TextProjection
