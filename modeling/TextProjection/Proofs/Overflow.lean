import TextProjection.Proofs.Session.Silence
import TextProjection.Proofs.Solo
import TextProjection.Proofs.Workspace

/-! Sums that are not words. Range changes look at regions inside of the text only, so that no such
sum is formed for them. An edit needs one sum for where it stands among the fragments and some for
where they drift, and all of them are words if the text can be addressed before and after.
-/

set_option autoImplicit false

namespace TextProjection

variable {μ : Type}

/-- The program has not stopped at a sum that is no word. -/
def Session.GoesOn (session : Session μ) : Prop := session.overflowed = false

def Notifier.GoesOn (notify : Notifier μ) : Prop :=
  ∀ master phase change (session : Session μ), session.GoesOn →
    (notify master phase change session).GoesOn

namespace Session

variable {notify : Notifier μ} {master : Master} {outgoing : Outgoing} {session : Session μ}
  {region : Region} {edit : Edit}

section
variable (goes : notify.GoesOn)

include goes

/-! Range changes -/

theorem pairing_goesOn (master : Master) :
    Pairing notify notify master fun left right => left = right ∧ left.GoesOn where
  agrees left right := by
    rintro ⟨rfl, -⟩
    exact ⟨left.projection.listeners, rfl⟩
  change left right layout text planned broken := by
    rintro ⟨rfl, here⟩
    exact ⟨rfl, here⟩
  applied left right change := by
    rintro ⟨rfl, here⟩
    exact ⟨rfl, here⟩
  tell left right phase change := by
    rintro ⟨rfl, here⟩
    exact ⟨rfl, goes master phase change left here⟩

theorem request_goesOn (master : Master) (request : Request) (here : session.GoesOn) :
    (session.request notify master request).1.GoesOn := by
  by_cases ranges : request.Ranges
  · have pairing := pairing_goesOn goes master
    rcases request_both pairing ranges rfl (conclude_both pairing ⟨rfl, here⟩) with
      ⟨error, refused, -⟩ | ⟨⟨-, after⟩, -⟩
    · rw [refused]
      exact here
    · exact after
  · cases request with
    | add _ | remove _ | reset _ => exact absurd trivial ranges
    | setAutoExpand _ | subscribe | unsubscribe _ | dispose => exact here

/-! Edits of the master -/

omit goes in
theorem breakOnFault_goesOn {outcome : Outcome (Session μ)} (here : outcome.state.GoesOn) :
    (breakOnFault outcome).state.GoesOn := by
  unfold breakOnFault
  split <;> exact here

theorem takeShown_goesOn (master : Master) (edit : Edit) (here : session.GoesOn) :
    (takeShown notify master edit session).state.GoesOn := by
  have filled : (fill notify master edit.region (some edit) session).Both
      (fun left right => left = right ∧ left.GoesOn)
      (fill notify master edit.region (some edit) session) :=
    fill_both (pairing_goesOn goes master) (some edit) ⟨rfl, here⟩
  have both : (takeShown notify master edit session).Both
      (fun left right => left = right ∧ left.GoesOn) (takeShown notify master edit session) := by
    refine filled.andThen fun left right => ?_
    rintro ⟨rfl, still⟩
    exact ⟨rfl, rfl, still⟩
  exact both.state.2

theorem anticipate_goesOn (fits : master.length < Offset.bound)
    (inside : edit.region.Inside master.length) (sound : session.SoundIdle master.text .none)
    (here : session.GoesOn) : (anticipate notify master edit session).state.GoesOn := by
  cases live : session.projection.disposed with
  | true =>
    rw [anticipate, if_pos live]
    exact here
  | false =>
    rw [anticipate_of_soundIdle fits (Region.stop_lt_of_inside inside fits) sound live]
    apply breakOnFault_goesOn
    split
    · exact takeShown_goesOn goes master edit here
    · exact here

section
variable {text : Text} (fits : edit.splice.Fits text.length)

include fits in
theorem followAnnounced_goesOn (respects : notify.Respects master)
    (awaits : session.projection.Awaits text outgoing edit) (here : session.GoesOn) :
    (followAnnounced notify master edit session).state.GoesOn := by
  obtain ⟨change, pending, foreseen⟩ := awaits.announced
  have heard : session.projection.Held (change.elim session fun change =>
        notify master .before change session).projection ∧
      (change.elim session fun change => notify master .before change session).GoesOn := by
    have before : session.projection.Held session.projection := .inl ⟨_, _, rfl⟩
    cases change with
    | none => exact ⟨before, here⟩
    | some change =>
      exact ⟨respects.held _ (Option.isSome_of_eq_some pending) .before change session before,
        goes master .before change session here⟩
  have inside : edit.region.Inside text.length := Region.inside_iff.mpr fits.removed_le
  have ends : (followAnnounced notify master edit session).Ends GoesOn fun _ => False := by
    refine followAnnounced_spec (fun told => session.projection.Held told.projection ∧ told.GoesOn)
      awaits.live pending heard (fun _ told _ => told.2) fun told heard live => ?_
    obtain ⟨held, still⟩ := heard
    obtain ⟨patched, -⟩ := awaits.follows foreseen held live inside
    obtain ⟨options, listeners, same⟩ := held.eq_of_live live
    have wf : told.projection.layout.WellFormed text.length := by
      rw [same]
      exact awaits.wellFormed.layout
    refine ⟨_, patched, ?_⟩
    rw [noteDrift_eq wf fits]
    cases change with
    | none => exact still
    | some change => exact goes master .after change _ still
  exact ends.success.2

include fits in
theorem followUnannounced_goesOn (master : Master) (sound : session.SoundIdle text outgoing)
    (here : session.GoesOn) : (followUnannounced notify master edit session).state.GoesOn := by
  unfold followUnannounced
  rw [noteDrift_eq sound.wellFormed.layout fits]
  extract_lets followed awaiting
  split
  · exact here
  · split
    · exact here
    · extract_lets change told
      have still : told.GoesOn := goes master .before change _ here
      split
      · exact still
      · generalize checks : told.within _ = checked
        have kept : checked.state.GoesOn := by
          rw [← checks]
          exact still
        obtain ⟨after, error⟩ := checked
        cases error with
        | none => exact goes master .after change _ kept
        | some error => exact kept

include fits in
theorem confirm_goesOn (respects : notify.Respects master)
    (ready : session.projection.Ready text outgoing edit) (here : session.GoesOn) :
    (confirm notify master edit session).state.GoesOn := by
  rcases ready with awaits | sound
  · rw [confirm_of_awaits awaits]
    exact breakOnFault_goesOn (followAnnounced_goesOn goes fits respects awaits here)
  · cases live : session.projection.disposed with
    | true =>
      rw [confirm, if_pos live]
      exact here
    | false =>
      rw [confirm_of_soundIdle sound live]
      exact breakOnFault_goesOn (followUnannounced_goesOn goes fits master sound here)

end

section
variable {text : Text} (fits : master.length < Offset.bound)
  (respects : ∀ master : Master, master.length < Offset.bound → notify.Respects master)

include fits respects

theorem editMaster_goesOn (outgoing : Outgoing) (here : session.GoesOn)
    (anticipated : region.Inside master.length →
      let heard := anticipate notify { master with nextEdit := master.nextEdit + 1 }
        ⟨master.nextEdit, region, text⟩ session
      heard.state.GoesOn ∧ (heard.error = none →
        heard.state.projection.Ready master.text outgoing ⟨master.nextEdit, region, text⟩))
    (fitsAfter : (editMaster notify master region text session).state.1.length < Offset.bound) :
    (editMaster notify master region text session).state.2.GoesOn := by
  unfold editMaster at fitsAfter ⊢
  by_cases inside : region.Inside master.length
  · simp only [Master.prepare_eq inside] at fitsAfter ⊢
    obtain ⟨still, ready⟩ := anticipated inside
    generalize anticipate notify _ _ session = heard at still ready fitsAfter ⊢
    obtain ⟨after, error⟩ := heard
    cases error with
    | some error => exact still
    | none =>
      simp only [Outcome.map, Outcome.andThen, Master.commit_prepared inside] at fitsAfter ⊢
      have spliced : (Edit.mk master.nextEdit region text).splice.Fits master.text.length :=
        Edit.splice_fits fits inside fitsAfter
      exact confirm_goesOn goes spliced (respects _ fitsAfter) (ready rfl) still
  · simp only [Master.prepare_eq_error inside]
    exact here

theorem editMaster_goesOn_of_soundIdle (sound : session.SoundIdle master.text .none)
    (here : session.GoesOn)
    (fitsAfter : (editMaster notify master region text session).state.1.length < Offset.bound) :
    (editMaster notify master region text session).state.2.GoesOn := by
  refine editMaster_goesOn goes fits respects .none here (fun inside => ?_) fitsAfter
  have ends : (anticipate notify { master with nextEdit := master.nextEdit + 1 }
      ⟨master.nextEdit, region, text⟩ session).Ends
        (·.projection.Ready master.text .none ⟨master.nextEdit, region, text⟩)
        (SoundIdle master.text .none) :=
    anticipate_ends fits (respects _ fits) inside sound
  exact ⟨anticipate_goesOn goes fits inside sound here, ends.good⟩

theorem replace_goesOn {image : Region} (sound : session.SoundIdle master.text .none)
    (here : session.GoesOn)
    (fitsAfter : (replace notify master image text session).state.1.length < Offset.bound) :
    (replace notify master image text session).state.2.GoesOn := by
  unfold replace at fitsAfter ⊢
  rcases beginForwarding_cases sound.toSound image text with
    ⟨error, refused, -⟩ | ⟨live, ready, inside⟩
  · simp only [refused]
    exact here
  · obtain ⟨origin, begun, originInside, -, foreseen⟩ :=
      sound.wellFormed.exists_beginForwarding fits ready inside text
    obtain ⟨admits, place⟩ := foreseen ⟨master.nextEdit, origin, text⟩ rfl
    simp only [begun] at fitsAfter ⊢
    refine editMaster_goesOn goes fits respects (.forwarding none) here (fun _ => ?_) fitsAfter
    rw [anticipate_forwarding fits originInside sound live]
    exact ⟨here, fun _ => .inl (sound.awaits_forwarded live admits place)⟩

end

end

/-! Listeners -/

theorem perform_goesOn (master : Master) {reaction : Reaction μ} (requests : reaction.Requests)
    (here : session.GoesOn) : (perform master reaction session).GoesOn := by
  induction requests generalizing session with
  | rest memory => exact here
  | act request next _ ih =>
    rw [perform_act]
    split
    · exact here
    · have queues : (enqueue : Notifier μ).GoesOn := fun master phase change session here =>
        enqueue_upholds (fun _ _ _ here => here) master phase change here
      exact ih _ _ (request_goesOn queues master request here)

theorem publish_goesOn {audience : Audience μ} (requests : audience.Requests) :
    (publish audience).GoesOn := by
  have upholds : audience.Upholds GoesOn :=
    ⟨fun _ _ _ here => here, fun _ _ _ _ here _ => here,
      fun session delivery here _ => perform_goesOn delivery.master (requests session.memory delivery)
        here⟩
  exact fun master phase change session here => publish_upholds upholds master phase change here

end Session

/-! A projection alone with its master -/

namespace Solo

variable {audience : Audience μ} {first solo : Solo μ}

theorem run_goesOn (requests : audience.Requests) (sound : solo.SoundIdle)
    (fits : solo.master.length < Offset.bound) (here : solo.session.GoesOn) {command : Command}
    (heard : command.Heard)
    (fitsAfter : (solo.run audience command).1.master.length < Offset.bound) :
    (solo.run audience command).1.session.GoesOn := by
  have goes : (publish audience).GoesOn := Session.publish_goesOn requests
  have respects (master : Master) (_ : master.length < Offset.bound) :
      (publish audience).Respects master := Session.publish_respects requests
  cases heard with
  | request request => exact Session.request_goesOn goes solo.master request here
  | edit region text =>
    exact Session.editMaster_goesOn_of_soundIdle goes fits respects sound here fitsAfter
  | replace image text => exact Session.replace_goesOn goes fits respects sound here fitsAfter
  | set text => exact Session.replace_goesOn goes fits respects sound here fitsAfter

theorem Reaches.goesOn (requests : audience.Requests) (reaches : Reaches audience first solo)
    (sound : first.SoundIdle) (here : first.session.GoesOn) : solo.session.GoesOn := by
  induction reaches with
  | first fits => exact here
  | run reaches heard fitsAfter ih =>
    obtain ⟨sound, fits⟩ := reaches.soundIdle requests sound
    exact run_goesOn requests sound fits ih heard fitsAfter

/-- As long as the master text can be addressed, no command of any run stops the program. -/
theorem run?_of_reaches (requests : audience.Requests) {text : Text} {options : Options} {memory : μ}
    {allowance : Nat} (reaches : Reaches audience (start text options memory allowance) solo)
    {command : Command} (heard : command.Heard)
    (fits : (solo.run audience command).1.master.length < Offset.bound) :
    solo.run? audience command = some (solo.run audience command) := by
  have sound := start_soundIdle text options memory allowance
  have after : (solo.run audience command).1.session.overflowed = false :=
    (Reaches.run reaches heard fits).goesOn requests sound rfl
  simp [run?, after]

-- An edit that nobody prepared may end past the last word.
example :
    let silent : Audience Unit := fun _ _ => .rest ()
    let shown := ((start ['a', 'b'] {} () 0).run silent (.act (.request (.add ⟨0, 2⟩)))).1
    shown.run? silent (.act (.confirm ⟨9, ⟨1, 18446744073709551615⟩, []⟩)) = none := by
  decide +kernel

end Solo

/-! A workspace -/

namespace Workspace

def GoesOn (workspace : Workspace μ) : Prop := ∀ entry ∈ workspace.sessions, entry.2.GoesOn

variable {audience : Audience μ} {first workspace : Workspace μ} {outgoing : Nat → Outgoing} {id : Nat}
  {edit : Edit} {region : Region} {text : Text}

theorem modify_goesOn {change : Session μ → Session μ} (here : workspace.GoesOn)
    (keeps : ∀ session, session.GoesOn → (change session).GoesOn) :
    (workspace.modify id change).GoesOn := by
  intro entry member
  rcases modify_cases member with ⟨-, found⟩ | ⟨session, found, rfl⟩
  · exact here entry found
  · exact keeps session (here _ found)

theorem create_goesOn (here : workspace.GoesOn) (options : Options) (memory : μ) (allowance : Nat) :
    (workspace.create options memory allowance).2.GoesOn := by
  intro entry member
  rcases List.mem_append.mp member with member | member
  · exact here entry member
  · rw [List.mem_singleton.mp member]
    rfl

section
variable (requests : audience.Requests)

include requests

theorem request_goesOn (here : workspace.GoesOn) (request : Request) :
    (workspace.request audience id request).1.GoesOn := by
  unfold Workspace.request
  cases found : workspace.session? id with
  | none => exact here
  | some session =>
    have after : (session.request (publish audience) workspace.master request).1.GoesOn :=
      Session.request_goesOn (Session.publish_goesOn requests) _ _ (here _ (member_of_session? found))
    have modified : (workspace.modify id fun _ =>
        (session.request (publish audience) workspace.master request).1).GoesOn :=
      modify_goesOn here fun _ _ => after
    simp only
    split
    · exact fun entry member => modified entry (List.mem_filter.mp member).1
    · exact modified

theorem commit_goesOn (fits : edit.splice.Fits workspace.master.text.length)
    (whole : ∀ entry ∈ workspace.sessions, entry.2.projection.broken = false)
    (ready : ∀ entry ∈ workspace.sessions,
      let heard := (Session.anticipate (publish audience) workspace.master edit entry.2).state
      heard.projection.Ready workspace.master.text (outgoing entry.1) edit ∧ heard.GoesOn) :
    (workspace.commit audience edit).state.GoesOn := by
  have inside : edit.region.Inside workspace.master.length := Region.inside_iff.mpr fits.removed_le
  have announced := tell_sessions (fun id session =>
    session.projection.Ready workspace.master.text (outgoing id) edit ∧ session.GoesOn) whole ready
  simp only [Workspace.commit, Master.commit_eq inside]
  refine tell_sessions (fun _ session => session.GoesOn) (fun entry member => ?_)
    fun entry member => ?_
  · rcases (announced entry member).1 with awaits | rest
    · exact awaits.whole
    · exact rest.whole
  · obtain ⟨ready, here⟩ := announced entry member
    exact Session.confirm_goesOn (Session.publish_goesOn requests) fits
      (Session.publish_respects requests) ready here

theorem editMaster_goesOn (outgoing : Nat → Outgoing) (fits : workspace.master.length < Offset.bound)
    (here : workspace.GoesOn)
    (whole : ∀ entry ∈ workspace.sessions, entry.2.projection.broken = false)
    (ready : ∀ master : Master, master.text = workspace.master.text → region.Inside master.length →
      ∀ entry ∈ workspace.sessions,
        let heard := (Session.anticipate (publish audience) master
          ⟨workspace.master.nextEdit, region, text⟩ entry.2).state
        heard.projection.Ready master.text (outgoing entry.1)
          ⟨workspace.master.nextEdit, region, text⟩ ∧ heard.GoesOn)
    (fitsAfter : (workspace.editMaster audience region text).state.master.length < Offset.bound) :
    (workspace.editMaster audience region text).state.GoesOn := by
  have made := editMaster_spec requests outgoing fits whole
    (fun master same inside entry member => (ready master same inside entry member).1) fitsAfter
  by_cases inside : region.Inside workspace.master.length
  · rw [if_pos inside] at made
    rw [Master.length, made.1] at fitsAfter
    have spliced : (Edit.mk workspace.master.nextEdit region text).splice.Fits
        workspace.master.text.length := Edit.splice_fits fits inside fitsAfter
    simp only [editMaster, Master.prepare_eq inside]
    exact commit_goesOn requests spliced whole (ready _ rfl inside)
  · rw [if_neg inside] at made
    rw [made]
    exact here

section
variable (fits : workspace.master.length < Offset.bound) (sound : workspace.SoundIdle fun _ => .none)
  (here : workspace.GoesOn)

include fits sound here

theorem editMaster_goesOn_of_soundIdle
    (fitsAfter : (workspace.editMaster audience region text).state.master.length < Offset.bound) :
    (workspace.editMaster audience region text).state.GoesOn := by
  refine editMaster_goesOn requests (fun _ => .none) fits here
    (fun entry member => (sound entry member).whole) (fun master same inside entry member => ?_)
    fitsAfter
  have fits' : master.length < Offset.bound := by rwa [Master.length, same]
  have sound' : entry.2.SoundIdle master.text .none := by
    rw [same]
    exact sound entry member
  have inside' : (Edit.mk workspace.master.nextEdit region text).region.Inside master.length := inside
  exact ⟨anticipate_ready requests fits' inside' sound', Session.anticipate_goesOn
    (Session.publish_goesOn requests) fits' inside' sound' (here entry member)⟩

theorem replace_goesOn {image : Region}
    (fitsAfter : (workspace.replace audience id image text).state.master.length < Offset.bound) :
    (workspace.replace audience id image text).state.GoesOn := by
  unfold Workspace.replace at fitsAfter ⊢
  cases found : workspace.session? id with
  | none => exact here
  | some session =>
    have before := sound _ (member_of_session? found)
    simp only [found] at fitsAfter ⊢
    rcases Session.beginForwarding_cases before.toSound image text with
      ⟨error, refused, -⟩ | ⟨live, able, inside⟩
    · simp only [refused]
      exact here
    · obtain ⟨origin, begun, originInside, -, foreseen⟩ :=
        before.wellFormed.exists_beginForwarding fits able inside text
      simp only [begun] at fitsAfter ⊢
      refine modify_goesOn ?_ fun _ still => still
      generalize opened : workspace.modify id _ = opening at fitsAfter ⊢
      have kept : opening.master = workspace.master := by rw [← opened]; rfl
      have still : opening.GoesOn := opened ▸ modify_goesOn here fun _ still => still
      obtain ⟨admits, place⟩ := foreseen ⟨opening.master.nextEdit, origin, text⟩ rfl
      refine editMaster_goesOn requests (fun other => if other = id then .forwarding none else .none)
        (by rwa [kept]) still (fun entry member => ?_) (fun master same inside entry member => ?_)
        fitsAfter
      · rcases modify_cases (opened.symm ▸ member) with ⟨-, member⟩ | ⟨other, -, rfl⟩
        · exact (sound entry member).whole
        · exact before.whole
      · rw [kept] at same
        have fits' : master.length < Offset.bound := by rwa [Master.length, same]
        constructor
        · exact forwarding_ready requests sound found live same fits' inside (opened.symm ▸ member)
            admits place
        · rcases forwarding_cases ⟨opening.master.nextEdit, origin, text⟩ sound found live same fits'
            inside (opened.symm ▸ member) (publish audience) with ⟨-, sound'⟩ | ⟨-, announced⟩
          · exact Session.anticipate_goesOn (Session.publish_goesOn requests) fits' inside sound'
              (still entry member)
          · rw [announced]
            exact still entry member

theorem run_goesOn (command : Command μ)
    (fitsAfter : (workspace.run audience command).1.master.length < Offset.bound) :
    (workspace.run audience command).1.GoesOn := by
  cases command with
  | create options memory allowance => exact create_goesOn here options memory allowance
  | createOf region options memory allowance =>
    simp only [run, createOf]
    split
    · exact here
    · exact request_goesOn requests (create_goesOn here options memory allowance) _
  | request id request => exact request_goesOn requests here request
  | replace id image text => exact replace_goesOn requests fits sound here fitsAfter
  | set id text =>
    simp only [run, set] at fitsAfter ⊢
    cases found : workspace.session? id with
    | none => exact here
    | some session =>
      simp only [found] at fitsAfter ⊢
      exact replace_goesOn requests fits sound here fitsAfter
  | editMaster region text => exact editMaster_goesOn_of_soundIdle requests fits sound here fitsAfter
  | setMaster text => exact editMaster_goesOn_of_soundIdle requests fits sound here fitsAfter

end

theorem Reaches.goesOn (reaches : Reaches audience first workspace)
    (sound : first.SoundIdle fun _ => .none) (here : first.GoesOn) : workspace.GoesOn := by
  induction reaches with
  | first fits => exact here
  | run reaches command fitsAfter ih =>
    obtain ⟨sound, fits⟩ := reaches.soundIdle requests sound
    exact run_goesOn requests fits sound ih command fitsAfter

/-- As long as the master text can be addressed, no command of any run stops the program. -/
theorem run?_of_reaches {text : Text} (reaches : Reaches audience { master := { text } } workspace)
    (command : Command μ) (fits : (workspace.run audience command).1.master.length < Offset.bound) :
    workspace.run? audience command = some (workspace.run audience command) := by
  have none : SoundIdle ({ master := { text } } : Workspace μ) fun _ => .none :=
    fun _ member => nomatch member
  have begins : GoesOn ({ master := { text } } : Workspace μ) := fun _ member => nomatch member
  have ends : Reaches audience { master := { text } } (workspace.run audience command).1 :=
    .run reaches command fits
  have after : (workspace.run audience command).1.GoesOn := ends.goesOn requests none begins
  have going : (workspace.run audience command).1.sessions.any (·.2.overflowed) = false := by
    simpa [GoesOn, Session.GoesOn] using after
  simp [run?, going]

end

end Workspace

end TextProjection
