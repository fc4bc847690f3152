import TextProjection.Proofs.Session.Closed
import TextProjection.Proofs.Session.Silence

/-! An alarm for faults that are found while a range change is being announced. It is kept beside what
the listeners remember and changes nothing. If it has gone off, the operation ends with a fault.
-/

set_option autoImplicit false

namespace TextProjection

variable {μ σ : Type}

namespace Session

def plain (session : Session (μ × Bool)) : Session μ where
  projection := session.projection
  memory := session.memory.1
  journal := session.journal
  allowance := session.allowance
  overflowed := session.overflowed

def alarm (session : Session μ) : Session (μ × Bool) where
  projection := session.projection
  memory := (session.memory, false)
  journal := session.journal
  allowance := session.allowance
  overflowed := session.overflowed

def Breaks (before after : Session μ) : Prop :=
  before.projection.closed? = none ∧ after.projection.disposed = false ∧
    after.projection.broken = true

instance (before after : Session μ) : Decidable (before.Breaks after) :=
  inferInstanceAs (Decidable (_ ∧ _))

/-- Tell the listeners. The alarm goes off if the announcement of a range change breaks the
projection. -/
def alarmed (notify : Notifier μ) : Notifier (μ × Bool) := fun master phase change session =>
  let told := notify master phase change session.plain
  { told with memory := (told.memory, session.memory.2 ||
    decide (phase = .before ∧ change.kind = .projection ∧ session.plain.Breaks told)) }

/-- With the alarm, the same happens as without it. -/
theorem coupling_plain (notify : Notifier μ) :
    Coupling (alarmed notify) notify fun left right => left.plain = right where
  agrees _ _ same := same ▸ rfl
  change _ _ _ same _ := same ▸ rfl
  note _ _ _ same := same ▸ rfl
  applied _ _ _ same := same ▸ rfl
  tell _ _ _ _ _ same := same ▸ rfl

theorem alarmed_after (notify : Notifier μ) (master : Master) (change : Change)
    (session : Session (μ × Bool)) :
    (alarmed notify master .after change session).memory.2 = session.memory.2 := by
  simp [alarmed]

theorem alarmed_content (notify : Notifier μ) (master : Master) (phase : Phase) {change : Change}
    (content : change.kind = .content) (session : Session (μ × Bool)) :
    (alarmed notify master phase change session).memory.2 = session.memory.2 := by
  simp [alarmed, content]

theorem alarmed_before {notify : Notifier μ} {master : Master} {change : Change}
    {session : Session (μ × Bool)} (quiet : session.memory.2 = false)
    (rings : (alarmed notify master .before change session).memory.2 = true) :
    (alarmed notify master .before change session).projection.closed? =
      some (.inconsistent .unusable) := by
  simp only [alarmed, quiet, Bool.false_or, decide_eq_true_eq] at rings ⊢
  obtain ⟨-, -, -, live, broken⟩ := rings
  exact Projection.closed?_of_broken live broken

end Session

/-- If the alarm has gone off, then with a fault. -/
def Outcome.Surfaces (rings : σ → Bool) (outcome : Outcome σ) : Prop :=
  rings outcome.state = true → ∃ fault, outcome.error = some (.inconsistent fault)

namespace Outcome.Surfaces

variable {rings : σ → Bool} {outcome : Outcome σ}

theorem of_quiet (quiet : rings outcome.state = false) : outcome.Surfaces rings :=
  fun rang => nomatch quiet.symm.trans rang

theorem quiet (surfaces : outcome.Surfaces rings) (success : outcome.error = none) :
    rings outcome.state = false := by
  by_contra rang
  obtain ⟨fault, failed⟩ := surfaces (Bool.eq_true_of_not_eq_false rang)
  cases success.symm.trans failed

theorem andThen {next : σ → Outcome σ} (surfaces : outcome.Surfaces rings)
    (goes : rings outcome.state = false → (next outcome.state).Surfaces rings) :
    (outcome.andThen next).Surfaces rings := by
  have quiet := surfaces.quiet
  obtain ⟨state, error⟩ := outcome
  cases error with
  | none => exact goes (quiet rfl)
  | some error => exact surfaces

theorem breakOnFault {outcome : Outcome (Session (μ × Bool))}
    (surfaces : outcome.Surfaces (·.memory.2)) :
    (Session.breakOnFault outcome).Surfaces (·.memory.2) := by
  unfold Session.breakOnFault
  split <;> exact surfaces

theorem reply (surfaces : outcome.Surfaces rings) (rang : rings outcome.reply.1 = true) :
    ∃ fault, outcome.reply.2 = .error (.inconsistent fault) := by
  obtain ⟨fault, failed⟩ := surfaces rang
  exact ⟨fault, by rw [Outcome.reply, failed]; rfl⟩

end Outcome.Surfaces

namespace Session

section

variable {notify : Notifier μ} {session : Session (μ × Bool)} (master : Master)
  (quiet : session.memory.2 = false)

include quiet

/-! Range changes -/

theorem conclude_surfaces :
    (conclude (alarmed notify) master session).Surfaces (·.memory.2) := by
  unfold conclude
  split
  · exact .of_quiet quiet
  · refine Outcome.Surfaces.andThen (.of_quiet quiet) fun still => .of_quiet ?_
    exact (alarmed_after notify master _ _).trans still

theorem undertake_surfaces (planned : Planned) :
    (undertake (alarmed notify) master session planned).Surfaces (·.memory.2) := by
  unfold undertake
  extract_lets before told
  have rings : told.memory.2 = true → told.projection.closed? = some (.inconsistent .unusable) :=
    alarmed_before quiet
  split
  · next error closed =>
    intro rang
    obtain rfl : error = .inconsistent .unusable := Option.some.inj (closed.symm.trans (rings rang))
    exact ⟨.unusable, rfl⟩
  · next usable =>
    refine conclude_surfaces master (Bool.eq_false_of_not_eq_true fun rang => ?_)
    cases usable.symm.trans (rings rang)

theorem undertakePlan_surfaces (plan : Except Error Planned) :
    (undertakePlan (alarmed notify) master session plan).Surfaces (·.memory.2) := by
  cases plan with
  | ok planned => exact undertake_surfaces master quiet planned
  | error error => exact .of_quiet quiet

theorem fillGaps_surfaces (region : Region) (edit : Option Edit) (limit rounds : Nat) :
    (fillGaps (alarmed notify) master region edit limit rounds session).Surfaces (·.memory.2) := by
  induction rounds generalizing session with
  | zero => exact .of_quiet quiet
  | succ rounds ih =>
    unfold fillGaps
    split
    · exact .of_quiet quiet
    · exact (undertakePlan_surfaces master quiet _).andThen ih

theorem changeRanges_surfaces (region : Region)
    {operation : Session (μ × Bool) → Outcome (Session (μ × Bool))}
    (goes : ∀ session : Session (μ × Bool), session.memory.2 = false →
      (operation session).Surfaces (·.memory.2)) :
    (changeRanges (alarmed notify) master region session operation).Surfaces (·.memory.2) := by
  unfold changeRanges Outcome.guarded
  split
  · exact ((conclude_surfaces master quiet).andThen (goes _)).breakOnFault
  · exact .of_quiet quiet

theorem request_surfaces (request : Request)
    (rang : (session.request (alarmed notify) master request).1.memory.2 = true) :
    ∃ fault, (session.request (alarmed notify) master request).2 = .error (.inconsistent fault) := by
  cases request with
  | add region =>
    exact (changeRanges_surfaces master quiet region fun _ quiet =>
      fillGaps_surfaces master quiet region none _ _).reply rang
  | remove region =>
    refine (changeRanges_surfaces master quiet region fun session quiet => ?_).reply rang
    split
    · exact .of_quiet quiet
    · exact undertakePlan_surfaces master quiet _
  | reset region =>
    exact (changeRanges_surfaces master quiet region fun _ quiet =>
      undertakePlan_surfaces master quiet _).reply rang
  | setAutoExpand on | subscribe | unsubscribe listener | dispose => cases quiet.symm.trans rang

/-! Edits of the master -/

theorem prepare_surfaces (edit : Edit) :
    (prepare (alarmed notify) master edit session).Surfaces (·.memory.2) := by
  unfold prepare
  extract_lets forgotten
  split
  · exact .of_quiet quiet
  · split
    · have still : forgotten.memory.2 = false := quiet
      refine Outcome.Surfaces.andThen (fillGaps_surfaces master still _ _ _ _) fun still => ?_
      exact .of_quiet still
    · exact .of_quiet quiet

theorem anticipate_surfaces (edit : Edit) :
    (anticipate (alarmed notify) master edit session).Surfaces (·.memory.2) := by
  unfold anticipate Outcome.guarded
  split
  · exact .of_quiet quiet
  · split
    · exact ((conclude_surfaces master quiet).andThen fun quiet =>
        prepare_surfaces master quiet edit).breakOnFault
    · exact .of_quiet quiet

theorem followAnnounced_surfaces (foresees : session.projection.Foresees) (edit : Edit) :
    (followAnnounced (alarmed notify) master edit session).Surfaces (·.memory.2) := by
  unfold followAnnounced
  extract_lets change told
  have content : ∀ foreseen, change = some foreseen → foreseen.kind = .content := by
    intro foreseen found
    obtain ⟨⟨edit, change⟩, pending, same⟩ := Option.bind_eq_some_iff.mp found
    obtain rfl : change = some foreseen := same
    exact foresees.pending edit foreseen pending
  clear_value change
  have still : told.memory.2 = false := by
    cases change with
    | none => exact quiet
    | some change => exact (alarmed_content notify master _ (content change rfl) _).trans quiet
  split
  · exact .of_quiet still
  · refine Outcome.Surfaces.andThen (.of_quiet still) fun still => .of_quiet ?_
    cases change with
    | none => exact still
    | some change => exact (alarmed_after notify master change _).trans still

theorem followUnannounced_surfaces (edit : Edit) :
    (followUnannounced (alarmed notify) master edit session).Surfaces (·.memory.2) := by
  unfold followUnannounced
  extract_lets followed awaiting
  split
  · exact .of_quiet quiet
  · split
    · exact .of_quiet quiet
    · extract_lets change told
      have still : told.memory.2 = false :=
        (alarmed_content notify master _ rfl _).trans quiet
      split
      · exact .of_quiet still
      · refine Outcome.Surfaces.andThen (.of_quiet still) fun still => .of_quiet ?_
        exact (alarmed_after notify master change _).trans still

end

/-- When listeners are told, still nothing but a change of the content is foreseen of any edit. -/
def Anticipates (notify : Notifier μ) : Prop :=
  ∀ master phase change (session : Session μ), session.projection.Foresees →
    (notify master phase change session).projection.Foresees

theorem coupling_foresees {notify : Notifier μ} (anticipates : Anticipates notify) :
    Coupling notify notify fun left right => left = right ∧ left.projection.Foresees :=
  .of_same (fun _ _ foresees continues => continues.foresees foresees) (fun _ _ foresees => foresees)
    (fun _ _ foresees => foresees)
    fun master phase change session foresees =>
      ⟨rfl, anticipates master phase change session foresees⟩

section

variable {notify : Notifier μ} (anticipates : Anticipates notify) {session : Session (μ × Bool)}
  (master : Master) (quiet : session.memory.2 = false) (foresees : session.projection.Foresees)

theorem alarmed_foresees (anticipates : Anticipates notify) : Anticipates (alarmed notify) :=
  fun master phase change session => anticipates master phase change session.plain

include anticipates quiet foresees

theorem confirm_surfaces (edit : Edit) :
    (confirm (alarmed notify) master edit session).Surfaces (·.memory.2) := by
  unfold confirm Outcome.guarded
  split
  · exact .of_quiet quiet
  · split
    · refine ((conclude_surfaces master quiet).andThen fun still => ?_).breakOnFault
      have coupling := coupling_foresees (alarmed_foresees anticipates)
      have concluded := conclude_both (coupling.pairing master) ⟨rfl, foresees⟩
      split
      · exact followAnnounced_surfaces master still concluded.state.2 edit
      · exact followUnannounced_surfaces master still edit
    · exact .of_quiet quiet

theorem editMaster_surfaces (region : Region) (text : Text) :
    (editMaster (alarmed notify) master region text session).Surfaces (·.2.memory.2) := by
  unfold editMaster
  cases master.prepare region text with
  | error error => exact .of_quiet quiet
  | ok prepared =>
    obtain ⟨edit, master⟩ := prepared
    have coupling := coupling_foresees (alarmed_foresees anticipates)
    have anticipated := anticipate_both coupling master edit ⟨rfl, foresees⟩
    have surfaces : ((anticipate (alarmed notify) master edit session).map (master, ·)).Surfaces
        (·.2.memory.2) := anticipate_surfaces master quiet edit
    refine surfaces.andThen fun still => ?_
    simp only [Outcome.map] at still ⊢
    cases master.commit edit with
    | error error => exact .of_quiet still
    | ok master => exact confirm_surfaces anticipates master still anticipated.state.2 edit

theorem replace_surfaces (image : Region) (text : Text) :
    (replace (alarmed notify) master image text session).Surfaces (·.2.memory.2) := by
  unfold replace
  split
  · exact .of_quiet quiet
  · next origin projection begins =>
    have begun := (Projection.continues_begun begins).foresees foresees
    have still : (Session.memory { session with projection }).2 = false := quiet
    exact editMaster_surfaces anticipates master still begun origin text

/-- If the alarm goes off in the course of an act, the act is answered with a fault. -/
theorem act_surfaces (act : Act)
    (rang : (session.act (alarmed notify) master act).1.memory.2 = true) :
    ∃ fault, (session.act (alarmed notify) master act).2 = .error (.inconsistent fault) := by
  cases act with
  | request request => exact request_surfaces master quiet request rang
  | anticipate edit => exact (anticipate_surfaces master quiet edit).reply rang
  | confirm edit => exact (confirm_surfaces anticipates master quiet foresees edit).reply rang
  | editCopy region text =>
    exact (editMaster_surfaces anticipates master quiet foresees region text).reply rang
  | replaceCopy image text =>
    exact (replace_surfaces anticipates master quiet foresees image text).reply rang

end

/-! Listeners foresee nothing else -/

section

variable {session : Session μ}

theorem foresees_dispose {projection : Projection} (foresees : projection.Foresees) :
    projection.dispose.Foresees := by
  unfold Projection.dispose
  split
  · exact foresees
  · exact ⟨nofun, nofun⟩

theorem act_foresees {notify : Notifier μ} (anticipates : Anticipates notify) (master : Master)
    (act : Act) (foresees : session.projection.Foresees) :
    (session.act notify master act).1.projection.Foresees := by
  refine (act_both (coupling_foresees anticipates) master ⟨rfl, foresees⟩ ?_).1.2
  rintro request - casual
  refine ⟨⟨rfl, ?_⟩, rfl⟩
  cases request with
  | add region | remove region | reset region => exact absurd trivial casual
  | setAutoExpand _ | subscribe | unsubscribe _ => exact ⟨foresees.pending, foresees.outgoing⟩
  | dispose => exact foresees_dispose foresees

theorem enqueue_foresees : Anticipates (enqueue : Notifier μ) := by
  intro master phase change session foresees
  unfold enqueue
  split
  · exact foresees
  · exact ⟨foresees.pending, foresees.outgoing⟩

theorem perform_foresees (master : Master) (reaction : Reaction μ)
    (foresees : session.projection.Foresees) :
    (perform master reaction session).projection.Foresees := by
  induction reaction generalizing session with
  | rest memory => exact foresees
  | act act next ih =>
    rw [perform_act]
    split
    · exact foresees
    · exact ih _ _ (act_foresees enqueue_foresees master act foresees)

theorem publish_foresees (audience : Audience μ) : Anticipates (publish audience) := by
  intro master phase change session foresees
  have upholds : audience.Upholds fun session => session.projection.Foresees :=
    ⟨fun _ _ _ foresees => ⟨foresees.pending, foresees.outgoing⟩, fun _ _ _ _ foresees _ => foresees,
      fun _ delivery foresees _ => perform_foresees delivery.master _ foresees⟩
  exact publish_upholds upholds master phase change foresees

end

end Session

end TextProjection
