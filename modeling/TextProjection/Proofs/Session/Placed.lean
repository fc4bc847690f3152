import TextProjection.Proofs.Projection.Placed
import TextProjection.Proofs.Session.Refusal

/-! A projection over any run, in which edits need not come as they were announced. Its fragments are
in order inside a text of some length, unless a fault was found in it. That text need not be the
master text: edits may be announced and never made, made and never announced, or confirmed out of
turn.
-/

set_option autoImplicit false

namespace TextProjection

variable {μ : Type}

namespace Projection

/-- The projection works, its fragments are in place, and nothing keeps it from changing its ranges. A
range change that was announced can still be carried out. Only where it is `away` may an edit be on
its way to the master. -/
structure PlacedSound (size : Nat) (away : Prop) (projection : Projection) : Prop where
  placed : projection.Placed size
  whole : projection.broken = false
  free : projection.pending = none
  home : away ∨ projection.outgoing = .none
  fits : ∀ planned, projection.planned = some planned →
    planned.Fits size projection.layout projection.text

/-- No range change is under way either. -/
structure PlacedIdle (size : Nat) (away : Prop) (projection : Projection) : Prop
    extends projection.PlacedSound size away where
  idle : projection.planned = none

/-- The fragments are in place unless a fault was found. An edit may be pending, but nothing else is
under way. -/
structure PlacedOrBroken (size : Nat) (away : Prop) (projection : Projection) : Prop where
  idle : projection.planned = none
  home : away ∨ projection.outgoing = .none
  placed : projection.broken = false → projection.Placed size

variable {projection before : Projection} {size larger : Nat} {away : Prop}

theorem casual_placedSound : Casual (PlacedSound size away) where
  settings _ _ placedSound := { placedSound with placed := placedSound.placed.congr rfl rfl }
  audience _ _ placedSound := { placedSound with placed := placedSound.placed.congr rfl rfl }
  dispose projection placedSound := by
    unfold Projection.dispose
    split
    · exact placedSound
    · exact {
        placed := placed_nil rfl rfl
        whole := placedSound.whole
        free := rfl
        home := .inr rfl
        fits := nofun }

theorem casual_placedIdle : Casual (PlacedIdle size away) where
  settings _ _ placedIdle := ⟨casual_placedSound.settings _ _ placedIdle.toPlacedSound, placedIdle.idle⟩
  audience _ _ placedIdle := ⟨casual_placedSound.audience _ _ placedIdle.toPlacedSound, placedIdle.idle⟩
  dispose projection placedIdle := by
    refine ⟨casual_placedSound.dispose _ placedIdle.toPlacedSound, ?_⟩
    unfold Projection.dispose
    split
    · exact placedIdle.idle
    · rfl

theorem casual_placedOrBroken : Casual (PlacedOrBroken size away) where
  settings _ _ placedOrBroken :=
    { placedOrBroken with placed := fun whole => (placedOrBroken.placed whole).congr rfl rfl }
  audience _ _ placedOrBroken :=
    { placedOrBroken with placed := fun whole => (placedOrBroken.placed whole).congr rfl rfl }
  dispose projection placedOrBroken := by
    unfold Projection.dispose
    split
    · exact placedOrBroken
    · exact ⟨rfl, .inr rfl, fun _ => placed_nil rfl rfl⟩

theorem PlacedSound.announced {planned : Planned} (placedSound : projection.PlacedSound size away)
    (fits : planned.Fits size projection.layout projection.text) :
    { projection with planned := some planned }.PlacedSound size away :=
  { placedSound with
    placed := placedSound.placed.congr rfl rfl
    fits := fun _ same => Option.some.inj same ▸ fits }

theorem upkeep_placedSound {master : Master} (within : master.length ≤ size) :
    Upkeep master (PlacedSound size away) (PlacedIdle size away) where
  sound_casual := casual_placedSound
  rest_casual := casual_placedIdle
  sound_of_rest _ placedIdle := placedIdle.toPlacedSound
  rest_of_dropped _ placedSound := ⟨{ placedSound with
    placed := placedSound.placed.congr rfl rfl
    fits := nofun }, rfl⟩
  idle _ placedIdle := placedIdle.idle
  usable _ placedSound := ⟨placedSound.whole, placedSound.free⟩
  carries projection planned placedSound _ found := by
    obtain ⟨layout, text, carried, placed⟩ :=
      exists_carryOut_of_fits { projection with planned := none } (placedSound.fits planned found)
    exact ⟨layout, text, carried, ⟨{ placedSound with placed, fits := nofun }, rfl⟩⟩
  hides _ region placedIdle := placedIdle.placed.layout.hidden_cases region
  fills _ gap edit placedIdle nonempty hidden := by
    rcases placedIdle.placed.planFill_cases within nonempty hidden edit with
      ⟨planned, plan, suits⟩ | refused
    · exact .inl ⟨planned, plan, placedIdle.announced suits⟩
    · exact .inr refused
  removes _ region placedIdle nonempty inside := by
    rcases placedIdle.placed.planRemoval_cases nonempty with
      ⟨planned, plan, suits⟩ | refused
    · exact .inl ⟨planned, plan, placedIdle.announced suits⟩
    · exact .inr refused
  resets projection region placedIdle inside := by
    obtain ⟨planned, plan, suits⟩ : ∃ planned, projection.planReset master region = .ok planned ∧
        planned.Fits size projection.layout projection.text := Placed.exists_planReset within inside
    exact ⟨planned, plan, placedIdle.announced suits⟩

theorem PlacedIdle.placedOrBroken (placedIdle : projection.PlacedIdle size away) :
    projection.PlacedOrBroken size away :=
  ⟨placedIdle.idle, placedIdle.home, fun _ => placedIdle.placed⟩

namespace PlacedOrBroken

theorem mono (placedOrBroken : projection.PlacedOrBroken size away) (le : size ≤ larger) :
    projection.PlacedOrBroken larger away :=
  { placedOrBroken with placed := fun whole => (placedOrBroken.placed whole).mono le }

theorem abroad (placedOrBroken : projection.PlacedOrBroken size away) :
    projection.PlacedOrBroken size True :=
  { placedOrBroken with home := .inl trivial }

theorem congr {other : Projection} (placedOrBroken : projection.PlacedOrBroken size away)
    (idle : other.planned = projection.planned) (home : away ∨ other.outgoing = .none)
    (broken : other.broken = projection.broken) (layout : other.layout = projection.layout)
    (text : other.text = projection.text) : other.PlacedOrBroken size away :=
  ⟨idle.trans placedOrBroken.idle, home,
    fun whole => (placedOrBroken.placed (broken.symm.trans whole)).congr layout text⟩

theorem damaged (idle : projection.planned = none) (home : away ∨ projection.outgoing = .none) :
    { projection with broken := true }.PlacedOrBroken size away :=
  ⟨idle, home, nofun⟩

theorem placedIdle (placedOrBroken : projection.PlacedOrBroken size away)
    (whole : projection.broken = false)
    (free : projection.pending = none) : projection.PlacedIdle size away where
  placed := placedOrBroken.placed whole
  whole := whole
  free := free
  home := placedOrBroken.home
  fits _ found := nomatch placedOrBroken.idle.symm.trans found
  idle := placedOrBroken.idle

theorem forget (placedOrBroken : projection.PlacedOrBroken size away) :
    projection.forget.PlacedOrBroken size away :=
  placedOrBroken.congr rfl placedOrBroken.home rfl rfl rfl

theorem between (placedOrBroken : projection.PlacedOrBroken size False) :
    projection.Between (PlacedIdle size False) where
  idle := placedOrBroken.idle
  home _ := placedOrBroken.home.resolve_left id
  usable usable := placedOrBroken.forget.placedIdle (usable_of_closed? usable).2 rfl

theorem seeded (placedOrBroken : projection.PlacedOrBroken size away) (edit : Edit) :
    (projection.seeded edit).PlacedOrBroken size away := by
  have kept := seeded_eq projection edit
  refine ⟨(congrArg (·.planned) kept).trans placedOrBroken.idle, ?_, fun whole => ?_⟩
  · rw [kept]
    exact placedOrBroken.home
  · exact (placedOrBroken.placed ((congrArg (·.broken) kept).symm.trans whole)).seeded edit

theorem held (placedOrBroken : before.PlacedOrBroken size away) (held : before.Held projection) :
    projection.PlacedOrBroken size away := by
  rcases held with ⟨options, listeners, rfl⟩ | ⟨options, listeners, rfl⟩
  · exact placedOrBroken.congr rfl placedOrBroken.home rfl rfl rfl
  · exact ⟨rfl, .inr rfl, fun _ => placed_nil rfl rfl⟩

end PlacedOrBroken

end Projection

structure Notifier.Steadies (notify : Notifier μ) : Prop where
  maintains : ∀ (master : Master) (size : Nat) (away : Prop), master.length ≤ size →
    notify.Maintains master (Projection.PlacedSound size away) (Projection.PlacedIdle size away)
  held : ∀ (master : Master) (before : Projection), before.pending.isSome = true →
    notify.Keeps master before.Held

namespace Session

theorem publish_steadies {audience : Audience μ} (requests : audience.Requests) :
    (publish audience).Steadies where
  maintains _ _ _ within := publish_maintains (Projection.upkeep_placedSound within) requests
  held master before pending := by
    apply publish_keeps_requested requests Projection.casual_held.audience
    exact request_keeps_held pending

variable {notify : Notifier μ} {master : Master} {session : Session μ} {edit : Edit} {size : Nat}
  {away : Prop}

/-- The fragments are in place afterwards, once a fault that was found has made the projection
unusable. -/
structure Lands (size : Nat) (away : Prop) (outcome : Outcome (Session μ)) : Prop where
  idle : outcome.state.projection.planned = none
  home : away ∨ outcome.state.projection.outgoing = .none
  placed : outcome.error.any Error.isFault = false →
    outcome.state.projection.broken = false → outcome.state.projection.Placed size

namespace Lands

variable {outcome : Outcome (Session μ)}

theorem of_placedOrBroken (placedOrBroken : outcome.state.projection.PlacedOrBroken size away) :
    Lands size away outcome :=
  ⟨placedOrBroken.idle, placedOrBroken.home, fun _ => placedOrBroken.placed⟩

theorem of_ends {good fair : Session μ → Prop} (ends : outcome.Ends good fair)
    (better : ∀ session, good session → session.projection.PlacedOrBroken size away)
    (fairer : ∀ session, fair session → session.projection.PlacedOrBroken size away) :
    Lands size away outcome := by
  apply of_placedOrBroken
  cases failed : outcome.error with
  | none => exact better _ (ends.good failed)
  | some error => exact fairer _ (ends.fair error failed).2

theorem fault {session : Session μ} (idle : session.projection.planned = none)
    (home : away ∨ session.projection.outgoing = .none) (fault : Fault) :
    Lands size away (.fail session (.inconsistent fault)) :=
  ⟨idle, home, nofun⟩

theorem andThen {next : Session μ → Outcome (Session μ)} (lands : Lands size away outcome)
    (second : outcome.error = none → outcome.state.projection.PlacedOrBroken size away →
      Lands size away (next outcome.state)) : Lands size away (outcome.andThen next) := by
  obtain ⟨state, error⟩ := outcome
  cases error with
  | none => exact second rfl ⟨lands.idle, lands.home, lands.placed rfl⟩
  | some error => exact lands

theorem breakOnFault (lands : Lands size away outcome) :
    (Session.breakOnFault outcome).state.projection.PlacedOrBroken size away := by
  unfold Session.breakOnFault
  split
  · exact .damaged lands.idle lands.home
  · next sane => exact ⟨lands.idle, lands.home, lands.placed (by simpa using sane)⟩

end Lands

variable (steadies : notify.Steadies)

include steadies

theorem request_placedOrBroken (within : master.length ≤ size)
    (placedOrBroken : session.projection.PlacedOrBroken size away) (request : Request) :
    (session.request notify master request).1.projection.PlacedOrBroken size away := by
  cases refuses : session.projection.refuses? with
  | none =>
    obtain ⟨-, whole⟩ := Projection.usable_of_refuses? refuses
    have free : session.projection.pending = none :=
      Option.map_eq_none_iff.mp (Option.or_eq_none_iff.mp refuses).2
    have maintains := steadies.maintains master size away within
    have kept := request_spec maintains (fun _ placedIdle => placedIdle)
      maintains.sound_of_rest Projection.casual_placedIdle (placedOrBroken.placedIdle whole free) request
    exact kept.1.placedOrBroken
  | some error =>
    cases request with
    | add _ | remove _ | reset _ =>
      rw [request_of_refused refuses (by trivial)]
      exact placedOrBroken
    | setAutoExpand on => exact Projection.casual_placedOrBroken.settings _ _ placedOrBroken
    | subscribe => exact Projection.casual_placedOrBroken.audience _ _ placedOrBroken
    | unsubscribe listener => exact Projection.casual_placedOrBroken.audience _ _ placedOrBroken
    | dispose => exact Projection.casual_placedOrBroken.dispose _ placedOrBroken

theorem anticipate_placedOrBroken (within : master.length ≤ size)
    (placedOrBroken : session.projection.PlacedOrBroken size away) :
    (anticipate notify master edit session).state.projection.PlacedOrBroken size away := by
  cases closed : session.projection.closed? with
  | some error =>
    rw [anticipate_of_closed closed]
    exact placedOrBroken
  | none =>
    obtain ⟨live, whole⟩ := Projection.usable_of_closed? closed
    rw [anticipate_of_idle live whole placedOrBroken.idle]
    apply Lands.breakOnFault
    have forgotten := placedOrBroken.forget
    have awaited {projection : Projection} (placedOrBroken : projection.PlacedOrBroken size away)
        (change : Option Change) : (projection.await edit change).PlacedOrBroken size away :=
      placedOrBroken.congr rfl placedOrBroken.home rfl rfl rfl
    unfold prepare
    simp only
    split
    · next forwarding =>
      apply Lands.of_placedOrBroken
      have seeded := forgotten.seeded edit
      unfold takeForwarded Session.within
      simp only [update]
      split
      · next change outgoing =>
        -- An edit is on its way, so it may go on to be.
        have abroad : away := seeded.home.resolve_right fun home => by
          cases home.symm.trans outgoing
        exact seeded.congr rfl (.inl abroad) rfl rfl rfl
      · exact seeded
    · split
      · unfold takeShown
        have placedIdle :
            ((session.update Projection.forget).noteTouch edit).projection.PlacedIdle size away :=
          forgotten.placedIdle whole rfl
        have filled := fill_ends (steadies.maintains master size away within) edit.region
          (some edit) placedIdle
        apply Lands.andThen
        · exact .of_ends filled (fun _ filled => filled.1.placedOrBroken) fun _ placedIdle =>
            placedIdle.placedOrBroken
        · intro _ placedOrBroken
          apply Lands.of_placedOrBroken
          unfold Session.within
          simp only
          split
          · exact awaited placedOrBroken _
          · exact placedOrBroken
      · exact .of_placedOrBroken (awaited (forgotten.seeded edit) _)

omit steadies in
theorem checked_lands {projection : Projection} (idle : projection.planned = none)
    (home : away ∨ projection.outgoing = .none) (wf : projection.layout.WellFormed size) :
    Lands size away (projection.checked.map fun projection => { session with projection }) := by
  refine ⟨idle, home, fun sane _ => ?_⟩
  have accepted : projection.checked.error = none := by
    cases failed : projection.checked.error with
    | none => rfl
    | some error =>
      have faulty := projection.checked_faulted error failed
      simp [Outcome.map, failed, faulty] at sane
  exact Projection.placed_of_checked wf accepted

theorem report_placedOrBroken (within : master.length ≤ size)
    (placedOrBroken : session.projection.PlacedOrBroken size away)
  (whole : session.projection.broken = false)
    (free : session.projection.pending = none) (change : Change) :
    (session.report notify master change).projection.PlacedOrBroken size away := by
  have placedIdle : (session.record (.applied change)).projection.PlacedIdle size away :=
    placedOrBroken.placedIdle whole free
  exact ((steadies.maintains master size away within).keepsRest _ _ _ placedIdle).placedOrBroken

section
variable (inside : edit.region.stop ≤ size)
  (within : master.length ≤ size + edit.text.length)
  (placedOrBroken : session.projection.PlacedOrBroken size away)
  (whole : session.projection.broken = false)

include inside within placedOrBroken whole

theorem followAnnounced_lands :
    Lands (size + edit.text.length) away (followAnnounced notify master edit session) := by
  unfold followAnnounced
  simp only
  generalize known : session.projection.pending.bind (·.change) = change
  -- With an edit pending, the listeners can dispose of the projection but not change its ranges.
  have told : session.projection.Held (change.elim session fun change =>
      notify master .before change session).projection := by
    have before : session.projection.Held session.projection := .inl ⟨_, _, rfl⟩
    cases change with
    | none => exact before
    | some change =>
      have pending : session.projection.pending.isSome = true := by
        cases pending : session.projection.pending with
        | none => simp [pending] at known
        | some found => rfl
      exact steadies.held master _ pending .before change session before
  generalize change.elim session _ = after at told
  have stays := placedOrBroken.held told
  have working : after.projection.broken = false := by
    rcases told with ⟨_, _, same⟩ | ⟨_, _, same⟩ <;> rw [same] <;> exact whole
  have wf : (after.projection.forget.follow edit).layout.WellFormed (size + edit.text.length) :=
    (stays.forget.placed working).follow inside
  split
  · exact .of_placedOrBroken (stays.mono (Nat.le_add_right _ _))
  · unfold Session.within
    cases change with
    | none =>
      apply Lands.andThen
      · simp only [Projection.patch]
        refine checked_lands ?_ ?_ wf
        exacts [stays.idle, stays.home]
      · exact fun _ placedOrBroken => .of_placedOrBroken placedOrBroken
    | some change =>
      simp only [Projection.patch]
      split
      · refine ⟨stays.idle, stays.home, fun sane => ?_⟩
        cases sane
      · apply Lands.andThen
        · refine checked_lands ?_ ?_ wf
          exacts [stays.idle, stays.home]
        · intro _ placedOrBroken
          exact .of_placedOrBroken
            (report_placedOrBroken steadies within placedOrBroken working rfl change)

theorem followUnannounced_lands (live : session.projection.disposed = false) :
    Lands (size + edit.text.length) away (followUnannounced notify master edit session) := by
  have wf : (session.projection.forget.follow edit).layout.WellFormed (size + edit.text.length) :=
    (placedOrBroken.forget.placed whole).follow inside
  unfold followUnannounced
  simp only
  split
  · refine .fault ?_ ?_ _
    exacts [placedOrBroken.idle, placedOrBroken.home]
  · split
    · refine checked_lands ?_ ?_ wf
      exacts [placedOrBroken.idle, placedOrBroken.home]
    · next text _ differs =>
      generalize told : notify master .before _ _ = heard
      have held : ((session.projection.forget.follow edit).await edit none).Held
          heard.projection := by
        rw [← told]
        exact steadies.held master _ rfl _ _ _ (.inl ⟨_, _, rfl⟩)
      clear told
      -- However the listeners reacted, the fragments are in order.
      have settled : heard.projection.planned = none ∧ (away ∨ heard.projection.outgoing = .none) ∧
          heard.projection.broken = false ∧
          heard.projection.layout.WellFormed (size + edit.text.length) := by
        rcases held with ⟨_, _, same⟩ | ⟨_, _, same⟩
        · rw [same]
          exact ⟨placedOrBroken.idle, placedOrBroken.home, whole, wf⟩
        · rw [same]
          exact ⟨rfl, .inr rfl, whole, Layout.WellFormed.nil⟩
      obtain ⟨idle, home, working, ordered⟩ := settled
      split
      · next disposed =>
        apply Lands.of_placedOrBroken
        obtain ⟨layout, text⟩ := held.blank live disposed
        exact ⟨idle, home, fun _ => Projection.placed_nil layout text⟩
      · apply Lands.andThen
        · refine checked_lands ?_ ?_ ordered
          exacts [idle, home]
        · intro _ placedOrBroken
          exact .of_placedOrBroken (report_placedOrBroken steadies within placedOrBroken working rfl _)

theorem confirm_lands (live : session.projection.disposed = false) :
    (confirm notify master edit session).state.projection.PlacedOrBroken
      (size + edit.text.length) away := by
  rw [confirm_of_idle live whole placedOrBroken.idle]
  apply Lands.breakOnFault
  split
  · exact followAnnounced_lands steadies inside within placedOrBroken whole
  · exact followUnannounced_lands steadies inside within placedOrBroken whole live

end

/-- However far an edit reaches, the fragments follow it when it is confirmed. -/
theorem confirm_placedOrBroken (edit : Edit)
    (placedOrBroken : session.projection.PlacedOrBroken size away)
    (within : master.length ≤ max size edit.region.stop + edit.text.length) :
    (confirm notify master edit session).state.projection.PlacedOrBroken
      (max size edit.region.stop + edit.text.length) away := by
  have larger := placedOrBroken.mono (Nat.le_max_left size edit.region.stop)
  cases closed : session.projection.closed? with
  | some error =>
    rw [confirm_of_closed closed]
    exact larger.mono (Nat.le_add_right _ _)
  | none =>
    obtain ⟨live, whole⟩ := Projection.usable_of_closed? closed
    exact confirm_lands steadies (Nat.le_max_right _ _) within larger whole live

section
variable {image : Region} {text : Text} (within : master.length ≤ size)

include within

theorem editMaster_placedOrBroken (region : Region)
    (placedOrBroken : session.projection.PlacedOrBroken size away) :
    let edited := (editMaster notify master region text session).state
    edited.1.length ≤ size + text.length ∧
      edited.2.projection.PlacedOrBroken (size + text.length) away := by
  unfold editMaster
  by_cases inside : region.Inside master.length
  · have bound := Region.inside_iff.mp inside
    have announced : (anticipate notify { master with nextEdit := master.nextEdit + 1 }
        ⟨master.nextEdit, region, text⟩ session).state.projection.PlacedOrBroken size away :=
      anticipate_placedOrBroken steadies within placedOrBroken
    have spliced : (master.text.splice region text).length ≤ size + text.length := by
      rw [Text.length_splice inside]
      change master.length - region.length + text.length ≤ _
      omega
    simp only [Master.prepare_eq inside]
    generalize anticipate notify { master with nextEdit := master.nextEdit + 1 }
      ⟨master.nextEdit, region, text⟩ session = outcome at announced
    obtain ⟨after, error⟩ := outcome
    cases error with
    | some error =>
      exact ⟨Nat.le_trans within (Nat.le_add_right _ _), announced.mono (Nat.le_add_right _ _)⟩
    | none =>
      simp only [Outcome.map, Outcome.andThen, Master.commit_prepared inside]
      have reach : max size region.stop = size := Nat.max_eq_left (Nat.le_trans bound within)
      have followed : (confirm notify
          ⟨master.text.splice region text, master.version + 1, master.nextEdit + 1⟩
          ⟨master.nextEdit, region, text⟩ after).state.projection.PlacedOrBroken
            (max size region.stop + text.length) away := by
        apply confirm_placedOrBroken steadies ⟨master.nextEdit, region, text⟩ announced
        exact spliced.trans (Nat.add_le_add_right (Nat.le_max_left _ _) _)
      rw [reach] at followed
      exact ⟨spliced, followed⟩
  · simp only [Master.prepare_eq_error inside]
    exact ⟨Nat.le_trans within (Nat.le_add_right _ _), placedOrBroken.mono (Nat.le_add_right _ _)⟩

theorem replace_placedOrBroken (placedOrBroken : session.projection.PlacedOrBroken size False) :
    let edited := (replace notify master image text session).state
    edited.1.length ≤ size + text.length ∧
      edited.2.projection.PlacedOrBroken (size + text.length) False := by
  unfold replace
  split
  · exact ⟨Nat.le_trans within (Nat.le_add_right _ _), placedOrBroken.mono (Nat.le_add_right _ _)⟩
  · next origin forwarding begins =>
    obtain ⟨-, -, rfl⟩ := Projection.beginForwarding_ok begins
    have begun : ({ session with projection := { session.projection with
        outgoing := .forwarding (some ⟨.content, image, text, origin, none⟩) } } :
          Session μ).projection.PlacedOrBroken size True :=
      placedOrBroken.abroad.congr rfl (.inl trivial) rfl rfl rfl
    obtain ⟨length, edited⟩ := editMaster_placedOrBroken steadies within origin begun
    exact ⟨length, edited.idle, .inr rfl, fun whole => (edited.placed whole).congr rfl rfl⟩

end

end Session

end TextProjection
