import TextProjection.Proofs.Session.Edit
import TextProjection.Workspace

/-! All projections of a workspace show the one master. Each session is sound and idle between two
commands; while an edit is announced and confirmed, the sessions go through it one by one, and what
becomes of one does not matter to the others.
-/

set_option autoImplicit false

namespace TextProjection.Workspace

variable {μ : Type}

/-- Each session is sound and idle, with its own state of forwarding. -/
def SoundIdle (workspace : Workspace μ) (outgoing : Nat → Outgoing) : Prop :=
  ∀ entry ∈ workspace.sessions, entry.2.SoundIdle workspace.master.text (outgoing entry.1)

/-- The states of the runs from a first state, as long as the master text can be addressed. -/
inductive Reaches (audience : Audience μ) (first : Workspace μ) : Workspace μ → Prop
  | first (fits : first.master.length < Offset.bound) : Reaches audience first first
  | run {workspace : Workspace μ} (reaches : Reaches audience first workspace) (command : Command μ)
      (fits : (workspace.run audience command).1.master.length < Offset.bound) :
      Reaches audience first (workspace.run audience command).1

def Command.replaces (master : Master) : Command μ → Option (Region × Text)
  | .editMaster region text => some (region, text)
  | .setMaster text => some (⟨0, master.length⟩, text)
  | _ => none

/-- Every projection is well-formed for the master text, works, and has no edit pending. -/
def AllWellFormed (workspace : Workspace μ) : Prop :=
  ∀ entry ∈ workspace.sessions,
    entry.2.projection.WellFormed workspace.master.text ∧ entry.2.projection.broken = false ∧
      entry.2.projection.pending = none

theorem SoundIdle.allWellFormed {workspace : Workspace μ} {outgoing : Nat → Outgoing}
    (sound : workspace.SoundIdle outgoing) : workspace.AllWellFormed :=
  fun entry member => ⟨(sound entry member).wellFormed, (sound entry member).whole,
    (sound entry member).free⟩

variable {audience : Audience μ} {workspace : Workspace μ} {outgoing : Nat → Outgoing} {id : Nat}

theorem member_of_session? {session : Session μ} (found : workspace.session? id = some session) :
    (id, session) ∈ workspace.sessions := by
  obtain ⟨front, back, split, -⟩ := List.lookup_eq_some_iff.mp found
  rw [split]
  simp

theorem modify_cases {change : Session μ → Session μ} {entry : Nat × Session μ}
    (member : entry ∈ (workspace.modify id change).sessions) :
    (entry.1 ≠ id ∧ entry ∈ workspace.sessions) ∨
      ∃ session, (id, session) ∈ workspace.sessions ∧ entry = (id, change session) := by
  obtain ⟨⟨other, session⟩, found, rfl⟩ := List.mem_map.mp member
  by_cases same : other = id
  · subst same
    exact .inr ⟨session, found, by simp⟩
  · exact .inl ⟨same, by simpa [same] using found⟩

theorem modify_soundIdle (outgoing' : Nat → Outgoing) {change : Session μ → Session μ}
    (sound : workspace.SoundIdle outgoing)
    (changed : ∀ session, session.SoundIdle workspace.master.text (outgoing id) →
      (change session).SoundIdle workspace.master.text (outgoing' id))
    (others : ∀ other, other ≠ id → outgoing' other = outgoing other) :
    (workspace.modify id change).SoundIdle outgoing' := by
  intro entry member
  rcases modify_cases member with ⟨differs, found⟩ | ⟨session, found, rfl⟩
  · rw [others _ differs]
    exact sound entry found
  · exact changed session (sound _ found)

theorem create_soundIdle (sound : workspace.SoundIdle fun _ => .none) (options : Options) (memory : μ)
    (allowance : Nat) : (workspace.create options memory allowance).2.SoundIdle fun _ => .none := by
  intro entry member
  rcases List.mem_append.mp member with member | member
  · exact sound entry member
  · rw [List.mem_singleton.mp member]
    exact {
      wellFormed := ⟨Layout.WellFormed.nil, rfl⟩
      whole := rfl
      free := rfl
      current := nofun
      cleared := nofun
      forwards := fun _ => rfl
      idle := rfl }

section
variable (requests : audience.Requests)

include requests in
theorem request_soundIdle
    (sound : workspace.SoundIdle fun _ => .none) (request : Request) :
    (workspace.request audience id request).1.SoundIdle fun _ => .none := by
  have respects : (publish audience).Respects workspace.master := Session.publish_respects requests
  unfold Workspace.request
  cases found : workspace.session? id with
  | none => exact sound
  | some session =>
    have before := sound _ (member_of_session? found)
    have after := (Session.request_spec (respects.maintains .none) (fun _ sound => sound)
      (fun _ sound => sound.toSound) Projection.casual_soundIdle before request).1
    have modified : (workspace.modify id fun _ =>
        (session.request (publish audience) workspace.master request).1).SoundIdle fun _ => .none :=
      modify_soundIdle _ sound (fun _ _ => after) fun _ _ => rfl
    simp only
    split
    · intro entry member
      exact modified entry (List.mem_filter.mp member).1
    · exact modified

theorem tell_sessions {operation : Session μ → Outcome (Session μ)} (after : Nat → Session μ → Prop)
    (whole : ∀ entry ∈ workspace.sessions, entry.2.projection.broken = false)
    (heard : ∀ entry ∈ workspace.sessions, after entry.1 (operation entry.2).state) :
    ∀ entry ∈ (workspace.tell operation).state.sessions, after entry.1 entry.2 := by
  intro entry member
  simp only [tell, List.map_map, List.mem_map, Function.comp] at member
  obtain ⟨⟨id, session⟩, found, rfl⟩ := member
  have works : session.projection.broken = false := whole _ found
  simp only [works, Bool.false_eq_true, if_false]
  exact heard _ found

variable {edit : Edit}

include requests in
theorem commit_soundIdle
    (inside : edit.region.Inside workspace.master.length)
    (fitsAfter : (edit.result workspace.master.text).length < Offset.bound)
    (whole : ∀ entry ∈ workspace.sessions, entry.2.projection.broken = false)
    (ready : ∀ entry ∈ workspace.sessions,
      (Session.anticipate (publish audience) workspace.master edit
        entry.2).state.projection.Ready workspace.master.text (outgoing entry.1) edit) :
    (workspace.commit audience edit).state.master = { workspace.master with
        text := edit.result workspace.master.text
        version := workspace.master.version + 1 } ∧
      (workspace.commit audience edit).state.SoundIdle outgoing := by
  have announced : ∀ entry ∈ (workspace.tell
      (Session.anticipate (publish audience) workspace.master edit)).state.sessions,
      entry.2.projection.Ready workspace.master.text (outgoing entry.1) edit :=
    tell_sessions (fun id session =>
      session.projection.Ready workspace.master.text (outgoing id) edit) whole ready
  have confirmed (master : Master) (same : master.text = edit.result workspace.master.text)
      (entry : Nat × Session μ) (member : entry ∈ (workspace.tell
        (Session.anticipate (publish audience) workspace.master edit)).state.sessions) :
      (Session.confirm (publish audience) master edit entry.2).state.SoundIdle master.text
        (outgoing entry.1) := by
    have fits' : master.length < Offset.bound := by rwa [Master.length, same]
    exact (Session.confirm_ends (Session.publish_respects requests) inside same
      (announced entry member)).success.2
  have committed := Master.commit_eq inside
  constructor
  · simp only [Workspace.commit, committed, tell]
    rfl
  · simp only [Workspace.commit, committed]
    refine tell_sessions (fun id session =>
      session.SoundIdle (edit.result workspace.master.text) (outgoing id)) (fun entry member => ?_)
      (confirmed { workspace.master with
        text := edit.result workspace.master.text
        version := workspace.master.version + 1 } rfl)
    -- Those that are broken are passed over, so none may have been broken on the way.
    rcases announced entry member with awaits | sound
    · exact awaits.whole
    · exact sound.whole

include requests in
theorem editMaster_spec {region : Region} {text : Text} (outgoing : Nat → Outgoing)
    (fits : workspace.master.length < Offset.bound)
    (whole : ∀ entry ∈ workspace.sessions, entry.2.projection.broken = false)
    (ready : ∀ master : Master, master.text = workspace.master.text →
      region.Inside master.length → ∀ entry ∈ workspace.sessions,
      (Session.anticipate (publish audience) master ⟨workspace.master.nextEdit, region, text⟩
        entry.2).state.projection.Ready master.text (outgoing entry.1)
          ⟨workspace.master.nextEdit, region, text⟩)
    (fitsAfter : (workspace.editMaster audience region text).state.master.length < Offset.bound) :
    if region.Inside workspace.master.length then
      (workspace.editMaster audience region text).state.master = {
        text := workspace.master.text.splice region text
        version := workspace.master.version + 1
        nextEdit := workspace.master.nextEdit + 1 } ∧
      (workspace.editMaster audience region text).state.SoundIdle outgoing
    else
      (workspace.editMaster audience region text).state = workspace := by
  unfold editMaster at fitsAfter ⊢
  split
  · next inside =>
    simp only [Master.prepare_eq inside] at fitsAfter ⊢
    -- Preparing the edit takes a number for it and leaves the text alone.
    generalize prepared : { workspace with master :=
      { workspace.master with nextEdit := workspace.master.nextEdit + 1 } } = before at fitsAfter ⊢
    have same : before.master.text = workspace.master.text := by rw [← prepared]
    have sessions : before.sessions = workspace.sessions := by rw [← prepared]
    have inside' : region.Inside before.master.length := by rwa [Master.length, same]
    have fits' : before.master.length < Offset.bound := by rwa [Master.length, same]
    have committed : before.master.commit ⟨workspace.master.nextEdit, region, text⟩ = _ :=
      Master.commit_eq inside'
    have fitsResult : (Edit.result ⟨workspace.master.nextEdit, region, text⟩
        before.master.text).length < Offset.bound := by
      simp only [Workspace.commit, tell, committed] at fitsAfter
      exact fitsAfter
    have made := commit_soundIdle requests inside' fitsResult (sessions ▸ whole)
      (sessions ▸ ready _ same inside')
    rw [made.1, same]
    exact ⟨by rw [← prepared]; rfl, made.2⟩
  · next outside =>
    simp only [Master.prepare_eq_error outside]
    rfl

include requests in
theorem anticipate_ready {master : Master} (fits : master.length < Offset.bound)
    (inside : edit.region.Inside master.length) {session : Session μ}
    (sound : session.SoundIdle master.text .none) :
    (Session.anticipate (publish audience) master edit session).state.projection.Ready master.text
      .none edit :=
  ((Session.anticipate_ends fits (Session.publish_respects requests) inside sound).mono
    (fun _ ready => ready) fun _ sound => .inr sound).state

include requests in
theorem editMaster_soundIdle {region : Region} {text : Text}
    (fits : workspace.master.length < Offset.bound) (sound : workspace.SoundIdle fun _ => .none)
    (fitsAfter : (workspace.editMaster audience region text).state.master.length < Offset.bound) :
    if region.Inside workspace.master.length then
      (workspace.editMaster audience region text).state.master = {
        text := workspace.master.text.splice region text
        version := workspace.master.version + 1
        nextEdit := workspace.master.nextEdit + 1 } ∧
      (workspace.editMaster audience region text).state.SoundIdle fun _ => .none
    else
      (workspace.editMaster audience region text).state = workspace := by
  refine editMaster_spec requests _ fits (fun entry member => (sound entry member).whole)
    (fun master same inside entry member => ?_) fitsAfter
  have fits' : master.length < Offset.bound := by rwa [Master.length, same]
  have sound' : entry.2.SoundIdle master.text .none := by
    rw [same]
    exact sound entry member
  have inside' : (Edit.mk workspace.master.nextEdit region text).region.Inside master.length := inside
  exact anticipate_ready requests fits' inside' sound'

section
variable {session : Session μ} {image : Region} {master : Master} {entry : Nat × Session μ}
  (sound : workspace.SoundIdle fun _ => .none) (found : workspace.session? id = some session)
  (live : session.projection.disposed = false) (same : master.text = workspace.master.text)
  (fits : master.length < Offset.bound) (inside : edit.region.Inside master.length)
  (opened : entry ∈ (workspace.modify id fun other => { other with
    projection := { session.projection with
      outgoing := .forwarding (some ⟨.content, image, edit.text, edit.region, none⟩) } }).sessions)

include sound found live same fits inside opened

variable (edit) in
/-- While one session forwards an edit, the others are still sound and idle. -/
theorem forwarding_cases (notify : Notifier μ) :
    (entry.1 ≠ id ∧ entry.2.SoundIdle master.text .none) ∨
      (entry.1 = id ∧ Session.anticipate notify master edit entry.2 =
        .done { entry.2 with projection := session.projection.awaitForwarded image edit }) := by
  rcases modify_cases opened with ⟨differs, member⟩ | ⟨other, -, rfl⟩
  · refine .inl ⟨differs, ?_⟩
    rw [same]
    exact sound entry member
  · have before : session.projection.SoundIdle master.text .none := by
      rw [same]
      exact sound _ (member_of_session? found)
    exact .inr ⟨rfl, Session.anticipate_forwarding fits inside before live⟩

include requests in
/-- The session that forwards an edit knows what the edit will do to it. -/
theorem forwarding_ready (admits : (session.projection.seeded edit).layout.Admits edit.region.offset)
    (place : (session.projection.seeded edit).layout.place edit.region = image) :
    (Session.anticipate (publish audience) master edit entry.2).state.projection.Ready master.text
      (if entry.1 = id then .forwarding none else .none) edit := by
  rcases forwarding_cases edit sound found live same fits inside opened (publish audience) with
    ⟨differs, sound'⟩ | ⟨this, announced⟩
  · rw [if_neg differs]
    exact anticipate_ready requests fits inside sound'
  · have before : session.projection.SoundIdle master.text .none := by
      rw [same]
      exact sound _ (member_of_session? found)
    rw [if_pos this, announced]
    exact .inl (before.awaits_forwarded live admits place)

end

include requests in
theorem replace_soundIdle {image : Region} {text : Text}
    (fits : workspace.master.length < Offset.bound) (sound : workspace.SoundIdle fun _ => .none)
    (fitsAfter : (workspace.replace audience id image text).state.master.length < Offset.bound) :
    (workspace.replace audience id image text).state.SoundIdle fun _ => .none := by
  unfold Workspace.replace at fitsAfter ⊢
  cases found : workspace.session? id with
  | none => exact sound
  | some session =>
    have before := sound _ (member_of_session? found)
    simp only [found] at fitsAfter ⊢
    rcases Session.beginForwarding_cases before.toSound image text with
      ⟨error, refused, -⟩ | ⟨live, able, inside⟩
    · simp only [refused]
      exact sound
    · obtain ⟨origin, begun, originInside, -, foreseen⟩ :=
        before.wellFormed.exists_beginForwarding fits able inside text
      simp only [begun] at fitsAfter ⊢
      generalize opened : workspace.modify id _ = opening at fitsAfter ⊢
      have kept : opening.master = workspace.master := by rw [← opened]; rfl
      obtain ⟨admits, place⟩ := foreseen ⟨opening.master.nextEdit, origin, text⟩ rfl
      have made := editMaster_spec requests
        (fun other => if other = id then .forwarding none else .none) (by rwa [kept])
        (fun entry member => by
          rcases modify_cases (opened.symm ▸ member) with ⟨-, member⟩ | ⟨other, -, rfl⟩
          · exact (sound entry member).whole
          · exact before.whole)
        (fun master same inside entry member => by
          rw [kept] at same
          exact forwarding_ready requests sound found live same (by rwa [Master.length, same]) inside
            (opened.symm ▸ member) admits place)
        fitsAfter
      rw [if_pos (show origin.Inside opening.master.length by rwa [kept])] at made
      change ((opening.editMaster audience origin text).state.modify id fun session =>
        session.update Projection.endForwarding).SoundIdle fun _ => .none
      refine modify_soundIdle _ made.2 (fun session forwarding => ?_) fun other differs => ?_
      · rw [if_pos rfl] at forwarding
        exact Session.soundIdle_endForwarding forwarding
      · rw [if_neg differs]

include requests in
theorem run_soundIdle (fits : workspace.master.length < Offset.bound)
    (sound : workspace.SoundIdle fun _ => .none) (command : Command μ)
    (fitsAfter : (workspace.run audience command).1.master.length < Offset.bound) :
    (workspace.run audience command).1.SoundIdle fun _ => .none := by
  -- An edit whose region lies outside of the text changes nothing.
  have edited {region : Region} {text : Text}
      (fitsAfter : (workspace.editMaster audience region text).state.master.length < Offset.bound) :
      (workspace.editMaster audience region text).state.SoundIdle fun _ => .none := by
    have made := editMaster_soundIdle requests fits sound fitsAfter
    split at made
    · exact made.2
    · rw [made]
      exact sound
  cases command with
  | create options memory allowance => exact create_soundIdle sound options memory allowance
  | createOf region options memory allowance =>
    simp only [run, createOf] at fitsAfter ⊢
    split
    · exact sound
    · have created := create_soundIdle sound options memory allowance
      have fits' : (workspace.create options memory allowance).2.master.length < Offset.bound := fits
      exact request_soundIdle requests created _
  | request id request => exact request_soundIdle requests sound request
  | replace id image text => exact replace_soundIdle requests fits sound fitsAfter
  | set id text =>
    simp only [run, set] at fitsAfter ⊢
    cases found : workspace.session? id with
    | none => exact sound
    | some session =>
      simp only [found] at fitsAfter ⊢
      exact replace_soundIdle requests fits sound fitsAfter
  | editMaster region text => exact edited fitsAfter
  | setMaster text => exact edited fitsAfter

include requests in
/-- A command to edit the master does so if its region lies inside the text, whatever becomes of
the sessions. -/
theorem run_spliced (fits : workspace.master.length < Offset.bound)
    (sound : workspace.SoundIdle fun _ => .none) {command : Command μ} {region : Region} {text : Text}
    (replaces : command.replaces workspace.master = some (region, text))
    (inside : region.Inside workspace.master.length)
    (fitsAfter : (workspace.run audience command).1.master.length < Offset.bound) :
    (workspace.run audience command).1.master.text = workspace.master.text.splice region text := by
  cases command with
  | editMaster region text =>
    obtain ⟨rfl, rfl⟩ := Option.some.inj replaces
    have made := editMaster_soundIdle requests fits sound fitsAfter
    rw [if_pos inside] at made
    exact congrArg Master.text made.1
  | setMaster text =>
    obtain ⟨rfl, rfl⟩ := Option.some.inj replaces
    have made := editMaster_soundIdle requests fits sound fitsAfter
    rw [if_pos inside] at made
    exact congrArg Master.text made.1
  | _ => cases replaces

include requests in
theorem Reaches.soundIdle {first : Workspace μ} (reaches : Reaches audience first workspace)
    (sound : first.SoundIdle fun _ => .none) :
    (workspace.SoundIdle fun _ => .none) ∧ workspace.master.length < Offset.bound := by
  induction reaches with
  | first fits => exact ⟨sound, fits⟩
  | run _ command fitsAfter ih =>
    obtain ⟨sound, fits⟩ := ih
    exact ⟨run_soundIdle requests fits sound command fitsAfter, fitsAfter⟩

end

/-- After every command of every run, failed or not, all projections are well-formed and work; and a
command to edit the master has done so if its region lies inside the text. -/
theorem allWellFormed_and_spliced (requests : audience.Requests) {text : Text}
    (reaches : Reaches audience { master := { text } } workspace) (command : Command μ)
    (fits : (workspace.run audience command).1.master.length < Offset.bound) :
    (workspace.run audience command).1.AllWellFormed ∧
      ∀ region text, command.replaces workspace.master = some (region, text) →
        region.Inside workspace.master.length →
        (workspace.run audience command).1.master.text =
          workspace.master.text.splice region text := by
  have none : SoundIdle ({ master := { text } } : Workspace μ) fun _ => .none :=
    fun _ member => nomatch member
  obtain ⟨sound, before⟩ := reaches.soundIdle requests none
  exact ⟨(run_soundIdle requests before sound command fits).allWellFormed,
    fun _ _ replaces inside => run_spliced requests before sound replaces inside fits⟩

/-- One of two projections exceeds its limit while the edit is being announced. -/
theorem allWellFormed_and_spliced_of_limit :
    let audience := Audience.once (.add ⟨2, 1⟩)
    let workspace : Workspace Bool := { master := { text := ['a', 'b', 'c', 'd', 'e'] } }
    let workspace := (workspace.run audience (.createOf ⟨0, 3⟩ {} false 1)).1
    let workspace := (workspace.run audience (.createOf ⟨1, 1⟩ ⟨⟨0, 0⟩, true⟩ false 1)).1
    (workspace.run audience (.editMaster ⟨0, 4⟩ ['x'])).2 = .error (.limitExceeded 0) ∧
      (workspace.run audience (.editMaster ⟨0, 4⟩ ['x'])).1.AllWellFormed ∧
      (workspace.run audience (.editMaster ⟨0, 4⟩ ['x'])).1.master.text = ['x', 'e'] := by
  have begun : Reaches (Audience.once (.add ⟨2, 1⟩))
      { master := { text := ['a', 'b', 'c', 'd', 'e'] } } _ := .first (by decide)
  have made := allWellFormed_and_spliced (Audience.once_requests (.add ⟨2, 1⟩))
    (.run (.run begun (.createOf ⟨0, 3⟩ {} false 1) (by decide))
      (.createOf ⟨1, 1⟩ ⟨⟨0, 0⟩, true⟩ false 1) (by decide))
    (.editMaster ⟨0, 4⟩ ['x']) (by decide)
  exact ⟨by decide, made.1, made.2 _ _ rfl (by decide)⟩

end TextProjection.Workspace
