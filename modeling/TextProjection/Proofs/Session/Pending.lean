import TextProjection.Proofs.Session.Edit

/-! Sessions with an edit pending. An edit may be announced long after it was prepared, when it does
not fit the text any more, and it may be announced and then given up. Nothing comes of that as long as
only edits that fit are committed.
-/

set_option autoImplicit false

namespace TextProjection

namespace Projection

/-- But for an edit that was announced, the projection is sound and idle. If that edit can be made, it
is known what it will do. -/
structure SoundPending (master : Text) (projection : Projection) : Prop where
  sound : projection.forget.SoundIdle master .none
  foreseen : ∀ pending, projection.pending = some pending →
    pending.edit.region.Inside master.length → projection.layout.Foresees pending.edit pending.change

structure Hears (master : Text) (edit : Edit) (projection : Projection) : Prop where
  soundPending : projection.SoundPending master
  pending : ∀ pending, projection.pending = some pending → pending.edit = edit

variable {projection : Projection} {master : Text} {edit : Edit}

theorem SoundIdle.soundPending (sound : projection.SoundIdle master .none) :
    projection.SoundPending master where
  sound := sound.forget_eq.symm ▸ sound
  foreseen _ found := nomatch sound.free.symm.trans found

theorem SoundIdle.hears (sound : projection.SoundIdle master .none) : projection.Hears master edit :=
  ⟨sound.soundPending, fun _ found => nomatch sound.free.symm.trans found⟩

theorem SoundPending.wellFormed (soundPending : projection.SoundPending master) :
    projection.WellFormed master :=
  soundPending.sound.wellFormed.congr rfl rfl

theorem SoundPending.soundIdle (soundPending : projection.SoundPending master)
    (free : projection.pending = none) :
    projection.SoundIdle master .none := by
  have same : projection.forget = projection := by
    cases projection
    simp only at free
    simp [forget, free]
  exact same ▸ soundPending.sound

theorem SoundPending.congr (soundPending : projection.SoundPending master) (options : Options)
    (listeners : Listeners) : { projection with options, listeners }.SoundPending master where
  sound := casual_soundIdle.settings _ options (casual_soundIdle.audience _ listeners soundPending.sound)
  foreseen := soundPending.foreseen

theorem SoundPending.awaits (soundPending : projection.SoundPending master)
    (live : projection.disposed = false)
    (inside : edit.region.Inside master.length) {change : Option Change}
    (pending : projection.pending = some ⟨edit, change⟩) : projection.Awaits master .none edit where
  wellFormed := soundPending.wellFormed
  whole := soundPending.sound.whole
  live := live
  idle := soundPending.sound.idle
  forwards := soundPending.sound.forwards live
  announced := ⟨change, pending, soundPending.foreseen _ pending inside⟩

theorem Awaits.soundPending (awaits : projection.Awaits master .none edit) :
    projection.SoundPending master where
  sound := {
    wellFormed := awaits.wellFormed.congr rfl rfl
    whole := awaits.whole
    free := rfl
    current := fun _ found => nomatch awaits.idle.symm.trans found
    cleared := fun disposed => nomatch awaits.live.symm.trans disposed
    forwards := fun _ => awaits.forwards
    idle := awaits.idle }
  foreseen pending found inside := by
    obtain ⟨change, announced, foreseen⟩ := awaits.announced
    obtain rfl := Option.some.inj (announced.symm.trans found)
    exact foreseen

theorem Awaits.hears (awaits : projection.Awaits master .none edit) : projection.Hears master edit := by
  obtain ⟨change, announced, -⟩ := awaits.announced
  refine ⟨awaits.soundPending, fun pending found => ?_⟩
  obtain rfl := Option.some.inj (announced.symm.trans found)
  rfl

theorem SoundIdle.seeded {outgoing : Outgoing} (sound : projection.SoundIdle master outgoing)
    (live : projection.disposed = false) (edit : Edit) :
    (projection.seeded edit).SoundIdle master outgoing := by
  have wf := sound.wellFormed.seeded edit
  rw [seeded_eq] at wf ⊢
  exact {
    wellFormed := wf
    whole := sound.whole
    free := sound.free
    current := fun _ found => nomatch sound.idle.symm.trans found
    cleared := fun disposed => nomatch live.symm.trans disposed
    forwards := sound.forwards
    idle := sound.idle }

theorem WellFormed.untouched_of_outside (wf : projection.WellFormed master)
    (fits : master.length < Offset.bound) (word : edit.region.stop < Offset.bound)
    (empty : edit.region.length = 0) (outside : ¬ edit.region.Inside master.length) :
    projection.isTouchedBy edit = false := by
  rw [Region.inside_iff] at outside
  rw [← Bool.not_eq_true, wf.isTouchedBy_iff fits word]
  -- No fragment reaches that far.
  rintro (⟨pair, member, meets⟩ | ⟨last, found, -, touches⟩)
  · have inside := wf.layout.inside pair member
    unfold Interval.Meets Interval.stop at *
    split_ifs at meets <;> omega
  · have inside := wf.layout.inside last (List.mem_of_getLast? found)
    omega

end Projection

variable {μ : Type}

namespace Session

variable {notify : Notifier μ} {master : Master} {session : Session μ} {edit : Edit}

/-! What was announced before makes no difference -/

section
variable (live : session.projection.disposed = false) (whole : session.projection.broken = false)
  (idle : session.projection.planned = none)

include live whole idle in
theorem anticipate_forget : anticipate notify master edit (session.update Projection.forget) =
    anticipate notify master edit session := by
  have forgotten : anticipate notify master edit (session.update Projection.forget) =
      breakOnFault (prepare notify master edit (session.update Projection.forget)) :=
    anticipate_of_idle live whole idle
  rw [forgotten, anticipate_of_idle live whole idle]
  rfl

include live whole idle in
theorem confirm_forget (other : session.projection.pending.any (·.edit.id == edit.id) = false) :
    confirm notify master edit (session.update Projection.forget) =
      confirm notify master edit session := by
  have forgotten : confirm notify master edit (session.update Projection.forget) = breakOnFault
      (followUnannounced notify master edit (session.update Projection.forget)) :=
    confirm_of_idle live whole idle
  rw [forgotten, confirm_of_idle live whole idle, other, if_neg Bool.false_ne_true]
  rfl

include live whole idle in
theorem editMaster_forget {region : Region} (inside : region.Inside master.length) (text : Text) :
    editMaster notify master region text (session.update Projection.forget) =
      editMaster notify master region text session := by
  simp only [editMaster, Master.prepare_eq inside, anticipate_forget live whole idle]

end

/-! Edits announced at any time -/

section
variable (fits : master.length < Offset.bound) (respects : notify.Respects master)
  (word : edit.region.stop < Offset.bound)

include fits respects word in
theorem takeShown_of_outside (outside : ¬ edit.region.Inside master.length)
    (sound : session.SoundIdle master.text .none) (must : session.projection.mustShow edit = true) :
    (takeShown notify master edit session).Ends (fun _ => False) (SoundIdle master.text .none) := by
  have nonempty : 0 < edit.region.length := by
    by_contra empty
    have untouched := sound.wellFormed.untouched_of_outside fits word (by omega) outside
    simp [Projection.mustShow, untouched, empty] at must
  refine (fill_ends (respects.maintains .none) edit.region (some edit) sound).andThen
    fun after filled => ?_
  have sound := filled.1
  have shown := filled.2 word
  rw [Region.inside_iff] at outside
  -- The last character of the region stands behind the end of the text.
  obtain ⟨pair, member, -, -, behind⟩ := shown (edit.region.stop - 1) (by
    unfold Region.Covers Region.stop
    omega)
  have inside : pair.fragment.stop ≤ master.length := sound.wellFormed.layout.inside pair member
  unfold Region.stop at behind
  exact absurd behind (by omega)

include fits respects word in
/-- After an edit was announced, whether or not it fits, nothing else is pending. -/
theorem anticipate_hears (soundPending : session.projection.SoundPending master.text)
    (live : session.projection.disposed = false) :
    (anticipate notify master edit session).Ends
      (fun after => after.projection.Hears master.text edit)
      (fun after => after.projection.Hears master.text edit) := by
  have sound : (session.update Projection.forget).SoundIdle master.text .none := soundPending.sound
  rw [← anticipate_forget live soundPending.sound.whole soundPending.sound.idle,
    anticipate_of_soundIdle fits word sound live]
  apply Outcome.Ends.breakOnFault
  by_cases inside : edit.region.Inside master.length
  · split
    · next must =>
      exact (takeShown_ends fits respects inside sound live must).mono (fun _ awaits => awaits.hears)
        fun _ sound => sound.hears
    · next mustNot =>
      exact .done (takeOther_awaits fits inside sound live (by simpa using mustNot)).hears
  · split
    · next must =>
      exact (takeShown_of_outside fits respects word inside sound must).mono
        (fun _ never => never.elim) fun _ sound => sound.hears
    · have seeded := sound.seeded live edit
      refine .done ⟨⟨seeded.forget_eq.symm ▸ seeded, fun pending found fitting => ?_⟩,
        fun pending found => ?_⟩
      · obtain rfl := Option.some.inj found
        exact absurd fitting inside
      · obtain rfl := Option.some.inj found
        rfl

end

/-! What comes while an edit is pending -/

section
variable (respects : notify.Respects master)
  (soundPending : session.projection.SoundPending master.text)

include respects soundPending in
theorem request_soundPending (request : Request)
    (live : (session.request notify master request).1.projection.disposed = false) :
    (session.request notify master request).1.projection.SoundPending master.text ∧
      (session.request notify master request).1.projection.pending = session.projection.pending := by
  cases pending : session.projection.pending with
  | none =>
    have sound := soundPending.soundIdle pending
    have after : (session.request notify master request).1.SoundIdle master.text .none :=
      (request_spec (respects.maintains .none) (fun _ sound => sound)
        (fun _ sound => sound.toSound) Projection.casual_soundIdle sound request).1
    exact ⟨after.soundPending, after.free⟩
  | some found =>
    have isPending := Option.isSome_of_eq_some pending
    have held : session.projection.Held (session.request notify master request).1.projection :=
      request_keeps_held isPending session request (.inl ⟨_, _, rfl⟩)
    obtain ⟨options, listeners, same⟩ := held.eq_of_live live
    rw [same]
    exact ⟨soundPending.congr options listeners, pending⟩

end

section
variable {text : Text} (respects : notify.Respects master)
  (inside : edit.region.Inside text.length) (result : master.text = edit.result text)
  (soundPending : session.projection.SoundPending text) (live : session.projection.disposed = false)
  (known : ∀ pending, session.projection.pending = some pending → pending.edit.id = edit.id →
    pending.edit = edit)

include respects inside result soundPending live known in
/-- Once an edit was confirmed, nothing is pending any more. -/
theorem confirm_of_soundPending :
    (confirm notify master edit session).Ends (SoundIdle master.text .none) fun _ => False := by
  -- An edit is either the one that is pending, or what is pending does not matter to it.
  cases matching : session.projection.pending.any (·.edit.id == edit.id) with
  | false =>
    rw [← confirm_forget live soundPending.sound.whole soundPending.sound.idle matching]
    exact confirm_ends respects inside result (.inr soundPending.sound)
  | true =>
    obtain ⟨pending, found, same⟩ := (Option.any_eq_true _ _).mp matching
    obtain rfl := known pending found (by simpa using same)
    exact confirm_ends respects inside result (.inl (soundPending.awaits live inside found))

end

/-! Edits made at once -/

section
variable {region image : Region} {text : Text}

theorem editMaster_refused (outside : ¬ region.Inside master.length) :
    editMaster notify master region text session =
      .fail (master, session) (.outsideText region master.length) := by
  simp only [editMaster, Master.prepare_eq_error outside]

theorem replace_refused {pending : Pending} (found : session.projection.pending = some pending) :
    ∃ error, replace notify master image text session = .fail (master, session) error := by
  obtain ⟨error, refuses⟩ : ∃ error, session.projection.refuses? = some error :=
    Projection.refuses_of_pending (Option.isSome_of_eq_some found)
  exact ⟨error, by simp only [replace, Projection.beginForwarding, refuses, Option.some_or]⟩

theorem editMaster_nextEdit (notify : Notifier μ) (master : Master) (region : Region) (text : Text)
    (session : Session μ) :
    master.nextEdit ≤ (editMaster notify master region text session).state.1.nextEdit := by
  by_cases inside : region.Inside master.length
  · simp only [editMaster, Master.prepare_eq inside, Outcome.map, Outcome.andThen,
      Master.commit_prepared inside]
    split <;> exact Nat.le_succ _
  · rw [editMaster_refused inside]
    exact Nat.le_refl _

theorem replace_nextEdit (notify : Notifier μ) (master : Master) (image : Region) (text : Text)
    (session : Session μ) :
    master.nextEdit ≤ (replace notify master image text session).state.1.nextEdit := by
  unfold replace
  split
  · exact Nat.le_refl _
  · exact editMaster_nextEdit notify master _ text _

/-- What becomes of the text, and of the edit that was pending. -/
structure Edited (session : Session μ) (edited : Master × Session μ) : Prop where
  soundPending : edited.2.projection.SoundPending edited.1.text
  pending : edited.2.projection.pending = none ∨
    edited.2.projection.pending = session.projection.pending

variable (fits : master.length < Offset.bound)
  (respects : ∀ master : Master, master.length < Offset.bound → notify.Respects master)
  (soundPending : session.projection.SoundPending master.text)

include fits respects soundPending in
theorem editMaster_edited (live : session.projection.disposed = false)
    (fitsAfter : (editMaster notify master region text session).state.1.length < Offset.bound) :
    session.Edited (editMaster notify master region text session).state := by
  have sound : (session.update Projection.forget).SoundIdle master.text .none := soundPending.sound
  by_cases inside : region.Inside master.length
  · rw [← editMaster_forget live soundPending.sound.whole soundPending.sound.idle inside] at fitsAfter ⊢
    have ends : (editMaster notify master region text (session.update Projection.forget)).Ends
        (fun edited => edited.2.SoundIdle edited.1.text .none)
        (fun edited => edited.2.SoundIdle edited.1.text .none) :=
      (editMaster_soundIdle respects fits sound fitsAfter).mono (fun _ made => made.2.2)
        fun edited kept => by
          rw [kept.1]
          exact kept.2.2
    exact ⟨ends.state.soundPending, .inl ends.state.free⟩
  · rw [editMaster_refused inside]
    exact ⟨soundPending, .inr rfl⟩

include fits respects soundPending in
theorem replace_edited
    (fitsAfter : (replace notify master image text session).state.1.length < Offset.bound) :
    session.Edited (replace notify master image text session).state := by
  cases pending : session.projection.pending with
  | none =>
    have sound := (replace_soundIdle fits respects (soundPending.soundIdle pending) fitsAfter).state
    exact ⟨sound.soundPending, .inl sound.free⟩
  | some found =>
    obtain ⟨error, refused⟩ : ∃ error, replace notify master image text session = _ :=
      replace_refused pending
    rw [refused]
    exact ⟨soundPending, .inr rfl⟩

end

end Session

end TextProjection
