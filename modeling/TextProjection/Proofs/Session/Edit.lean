import TextProjection.Proofs.Projection.Follow
import TextProjection.Proofs.Session.Closed
import TextProjection.Proofs.Session.Dispatch

/-! Master edits as a session sees them, and edits of the projection. Before an edit is committed the
session knows what the edit will do, or it is merely sound and idle; in both cases it is so for the
new text once the edit is confirmed.
-/

set_option autoImplicit false

namespace TextProjection

namespace Projection

/-- The projection is as before but for its settings and its listeners, or it was disposed. -/
def Held (before projection : Projection) : Prop :=
  (∃ options listeners, projection = { before with options, listeners }) ∨
    ∃ options listeners, projection = { before with
      layout := {}, text := [], outgoing := .none, pending := none, planned := none,
      disposed := true, options, listeners }

/-- An edit of the master text was announced, and it is known what it will do. -/
structure Awaits (master : Text) (outgoing : Outgoing) (edit : Edit) (projection : Projection) :
    Prop where
  wellFormed : projection.WellFormed master
  whole : projection.broken = false
  live : projection.disposed = false
  idle : projection.planned = none
  forwards : projection.outgoing = outgoing
  announced : ∃ change, projection.pending = some ⟨edit, change⟩ ∧
    projection.layout.Foresees edit change

/-- The edit may be committed: it was announced, or it will have to be followed without. -/
def Ready (master : Text) (outgoing : Outgoing) (edit : Edit) (projection : Projection) : Prop :=
  projection.Awaits master outgoing edit ∨ projection.SoundIdle master outgoing

variable {before projection : Projection} {master : Text} {outgoing : Outgoing}

theorem casual_held : Casual (Held before) where
  settings _ options held := by
    rcases held with ⟨_, listeners, rfl⟩ | ⟨_, listeners, rfl⟩
    · exact .inl ⟨options, listeners, rfl⟩
    · exact .inr ⟨options, listeners, rfl⟩
  audience _ listeners held := by
    rcases held with ⟨options, _, rfl⟩ | ⟨options, _, rfl⟩
    · exact .inl ⟨options, listeners, rfl⟩
    · exact .inr ⟨options, listeners, rfl⟩
  dispose projection held := by
    unfold dispose
    split
    · exact held
    · rcases held with ⟨options, listeners, rfl⟩ | ⟨options, listeners, rfl⟩
      · exact .inr ⟨options, _, rfl⟩
      · exact .inr ⟨options, _, rfl⟩

theorem Held.soundIdle (held : before.Held projection) (live : before.disposed = false)
    (whole : before.broken = false) (disposed : projection.disposed = true) :
    projection.SoundIdle master outgoing := by
  rcases held with ⟨options, listeners, rfl⟩ | ⟨options, listeners, rfl⟩
  · rw [live] at disposed
    cases disposed
  · exact {
      wellFormed := ⟨Layout.WellFormed.nil, rfl⟩
      whole := whole
      free := rfl
      current := nofun
      cleared := fun _ => rfl
      forwards := nofun
      idle := rfl }

theorem Held.eq_of_live (held : before.Held projection) (live : projection.disposed = false) :
    ∃ options listeners, projection = { before with options, listeners } := by
  rcases held with same | ⟨options, listeners, rfl⟩
  · exact same
  · cases live

theorem Held.blank (held : before.Held projection) (live : before.disposed = false)
    (disposed : projection.disposed = true) : projection.layout = {} ∧ projection.text = [] := by
  rcases held with ⟨options, listeners, rfl⟩ | ⟨options, listeners, rfl⟩
  · exact nomatch live.symm.trans disposed
  · exact ⟨rfl, rfl⟩

theorem soundIdle_follow {edit : Edit} (wf : projection.WellFormed master)
    (whole : projection.broken = false) (live : projection.disposed = false)
    (idle : projection.planned = none) (forwards : projection.outgoing = outgoing)
    (inside : edit.region.Inside master.length) :
    ((projection.forget.follow edit).readFrom (edit.result master)).SoundIdle (edit.result master)
      outgoing where
  wellFormed := by
    have forgotten : projection.forget.WellFormed master := wf.congr rfl rfl
    exact (forgotten.follow inside).1
  whole := whole
  free := rfl
  current _ found := nomatch idle.symm.trans found
  cleared disposed := nomatch live.symm.trans disposed
  forwards _ := forwards
  idle := idle

theorem SoundIdle.awaits_of_shown {edit : Edit} (sound : projection.SoundIdle master outgoing)
    (live : projection.disposed = false) (fits : master.length < Offset.bound)
    (inside : edit.region.Inside master.length)
    (shown : ∀ position, edit.region.Covers position → projection.layout.Shows position)
    (touched : edit.region.length = 0 → projection.isTouchedBy edit = true) :
    ∃ change, projection.imageOf? edit = some change ∧
      (projection.await edit (some change)).Awaits master outgoing edit := by
  suffices known : ∃ change, projection.imageOf? edit = some change ∧
      projection.layout.Foresees edit (some change) by
    obtain ⟨change, image, foreseen⟩ := known
    exact ⟨change, image, {
      wellFormed := sound.wellFormed.congr rfl rfl
      whole := sound.whole
      live := live
      idle := sound.idle
      forwards := sound.forwards live
      announced := ⟨_, rfl, foreseen⟩ }⟩
  rcases Nat.eq_zero_or_pos edit.region.length with empty | nonempty
  · obtain ⟨foreseen, -⟩ := sound.wellFormed.imageOf?_of_insertion fits inside empty
    have admits := sound.wellFormed.admits_of_touched fits inside empty (touched empty)
    cases found : projection.imageOf? edit with
    | none =>
      rw [found] at foreseen
      exact absurd admits foreseen.1
    | some change => exact ⟨change, rfl, found ▸ foreseen⟩
  · obtain ⟨image, admits⟩ := sound.wellFormed.imageOf?_of_shown fits nonempty shown
    exact ⟨_, image, admits, rfl, rfl, rfl, rfl⟩

def awaitForwarded (projection : Projection) (image : Region) (edit : Edit) : Projection :=
  { projection.seeded edit with
    outgoing := .forwarding none
    pending := some ⟨edit, some ⟨.content, image, edit.text, edit.region, some edit⟩⟩ }

theorem SoundIdle.awaits_forwarded {image : Region} {edit : Edit}
    (sound : projection.SoundIdle master outgoing) (live : projection.disposed = false)
    (admits : (projection.seeded edit).layout.Admits edit.region.offset)
    (place : (projection.seeded edit).layout.place edit.region = image) :
    (projection.awaitForwarded image edit).Awaits master (.forwarding none) edit := by
  have seeded := sound.wellFormed.seeded edit
  have kept := seeded_eq projection edit
  exact {
    wellFormed := seeded.congr rfl rfl
    whole := (congrArg (·.broken) kept).trans sound.whole
    live := (congrArg (·.disposed) kept).trans live
    idle := (congrArg (·.planned) kept).trans sound.idle
    forwards := rfl
    announced := ⟨_, rfl, admits, place.symm, rfl, rfl, rfl⟩ }

theorem Awaits.follows {told : Projection} {edit : Edit} {change : Option Change}
    (awaits : projection.Awaits master outgoing edit)
    (foreseen : projection.layout.Foresees edit change) (held : projection.Held told)
    (live : told.disposed = false)
    (inside : edit.region.Inside master.length) :
    (told.forget.follow edit).patch change =
        .done ((told.forget.follow edit).readFrom (edit.result master)) ∧
      ((told.forget.follow edit).readFrom (edit.result master)).SoundIdle (edit.result master)
        outgoing := by
  obtain ⟨options, listeners, rfl⟩ := held.eq_of_live live
  have wf : { projection with options, listeners }.WellFormed master :=
    awaits.wellFormed.congr rfl rfl
  have forgotten : { projection with options, listeners }.forget.WellFormed master :=
    wf.congr rfl rfl
  exact ⟨forgotten.patch_follow inside foreseen,
    soundIdle_follow wf awaits.whole live awaits.idle awaits.forwards inside⟩

theorem refuses_of_pending (pending : projection.pending.isSome = true) :
    ∃ error, projection.refuses? = some error := by
  obtain ⟨edit, found⟩ := Option.isSome_iff_exists.mp pending
  simp only [refuses?, closed?, found]
  split_ifs <;> exact ⟨_, rfl⟩

theorem Held.refuses (held : before.Held projection) (pending : before.pending.isSome = true) :
    ∃ error, projection.refuses? = some error := by
  rcases held with ⟨options, listeners, rfl⟩ | ⟨options, listeners, rfl⟩
  · exact refuses_of_pending pending
  · exact ⟨_, rfl⟩

theorem Sound.forget_eq (sound : projection.Sound master outgoing) : projection.forget = projection := by
  obtain ⟨-, -, free, -⟩ := sound
  cases projection
  simp only at free
  simp [forget, free]

end Projection

variable {μ : Type}

/-- What has to be asked of a way to tell the listeners, who have the master at hand. -/
structure Notifier.Respects (notify : Notifier μ) (master : Master) : Prop where
  sound : ∀ outgoing, notify.Keeps master (Projection.Sound master.text outgoing)
  rest : ∀ outgoing, notify.Keeps master (Projection.SoundIdle master.text outgoing)
  held : ∀ before : Projection, before.pending.isSome = true → notify.Keeps master before.Held

theorem Notifier.Respects.maintains {notify : Notifier μ} {master : Master}
    (respects : notify.Respects master) (outgoing : Outgoing) :
    notify.Maintains master (Projection.Sound master.text outgoing)
      (Projection.SoundIdle master.text outgoing) :=
  ⟨Projection.upkeep_sound, respects.sound outgoing, respects.rest outgoing⟩

namespace Session

theorem request_keeps_held {notify : Notifier μ} {master : Master} {before : Projection}
    (pending : before.pending.isSome = true) (session : Session μ) (request : Request)
    (held : before.Held session.projection) :
    before.Held (session.request notify master request).1.projection := by
  obtain ⟨error, refuses⟩ := held.refuses pending
  cases request with
  | add _ | remove _ | reset _ =>
    rw [request_of_refused refuses (by trivial)]
    exact held
  | setAutoExpand on => exact Projection.casual_held.settings _ _ held
  | subscribe => exact Projection.casual_held.audience _ _ held
  | unsubscribe listener => exact Projection.casual_held.audience _ _ held
  | dispose => exact Projection.casual_held.dispose _ held

theorem publish_respects {audience : Audience μ} {master : Master} (requests : audience.Requests) :
    (publish audience).Respects master where
  sound _ := (publish_maintains Projection.upkeep_sound requests).keepsSound
  rest _ := (publish_maintains Projection.upkeep_sound requests).keepsRest
  held _ pending :=
    publish_keeps_requested requests Projection.casual_held.audience (request_keeps_held pending)

variable {notify : Notifier μ} {master : Master} {outgoing : Outgoing} {session : Session μ}
  {edit : Edit}

theorem conclude_of_idle (idle : session.projection.planned = none) :
    conclude notify master session = .done session := by
  simp [conclude, idle]

section
variable (live : session.projection.disposed = false) (whole : session.projection.broken = false)
  (idle : session.projection.planned = none)

include live whole idle in
theorem anticipate_of_idle :
    anticipate notify master edit session = breakOnFault (prepare notify master edit session) := by
  simp only [anticipate, live, Projection.closed?, whole, Bool.false_eq_true, if_false,
    Outcome.guarded, conclude_of_idle idle, Outcome.done_andThen]

include live whole idle in
theorem confirm_of_idle :
    confirm notify master edit session = breakOnFault
      (if session.projection.pending.any (·.edit.id == edit.id) then
        followAnnounced notify master edit session
      else followUnannounced notify master edit session) := by
  simp only [confirm, live, Projection.closed?, whole, Bool.false_eq_true, if_false,
    Outcome.guarded, conclude_of_idle idle, Outcome.done_andThen]
  split <;> rfl

end

theorem noteTouch_eq {text : Text} (wf : session.projection.WellFormed text)
    (fits : text.length < Offset.bound) (word : edit.region.stop < Offset.bound) :
    session.noteTouch edit = session := by
  obtain ⟨touched, found, -⟩ := wf.exists_isTouchedBy? fits word
  rw [noteTouch, found]
  exact session.note_false

theorem noteDrift_eq {size : Nat} (wf : session.projection.layout.WellFormed size)
    (fits : edit.splice.Fits size) : session.noteDrift edit = session := by
  rw [noteDrift, wf.drift?_eq fits]
  exact session.note_false

theorem fill_of_empty {region : Region} (empty : region.length = 0) (edit : Option Edit) :
    fill notify master region edit session = .done session := by
  have none : session.projection.layout.firstHidden? region = none := by
    unfold Layout.firstHidden? Layout.hidden
    cases region.stop? <;> simp [Region.isEmpty, empty]
  simp [fill, fillGaps, none]

section
variable (fits : master.length < Offset.bound) (respects : notify.Respects master)
  (inside : edit.region.Inside master.length)

include fits respects inside in
theorem takeShown_ends (sound : session.SoundIdle master.text outgoing)
    (live : session.projection.disposed = false) (must : session.projection.mustShow edit = true) :
    (takeShown notify master edit session).Ends
      (fun session => session.projection.Awaits master.text outgoing edit)
      (SoundIdle master.text outgoing) := by
  unfold takeShown
  rcases Nat.eq_zero_or_pos edit.region.length with empty | nonempty
  · have touched : session.projection.isTouchedBy edit = true := by
      simpa [Projection.mustShow, empty] using must
    have noneCovered (position : Nat) : ¬ edit.region.Covers position := by
      unfold Region.Covers Region.stop
      omega
    -- Nothing is to be filled, but the place of the insertion has to have an image.
    obtain ⟨change, image, awaits⟩ := sound.awaits_of_shown live fits inside
      (fun position covers => absurd covers (noneCovered position)) fun _ => touched
    rw [fill_of_empty empty, Outcome.done_andThen]
    simp only [within, image]
    exact .done awaits
  · have word : edit.region.stop < Offset.bound := Region.stop_lt_of_inside inside fits
    refine (fill_ends (respects.maintains outgoing) edit.region (some edit) sound).andThen
      fun session filled => ?_
    have sound := filled.1
    have shown := filled.2 word
    have live : session.projection.disposed = false := by
      -- A listener may dispose of the projection meanwhile, but then it shows nothing.
      by_contra disposed
      have first := shown _ (Runs.covers_offset nonempty)
      rw [sound.cleared (by simpa using disposed)] at first
      exact Layout.shownBy_nil _ first
    obtain ⟨change, image, awaits⟩ := sound.awaits_of_shown live fits inside shown
      fun empty => absurd nonempty (by omega)
    simp only [within, image]
    exact .done awaits

include fits inside in
theorem takeOther_awaits (sound : session.SoundIdle master.text outgoing)
    (live : session.projection.disposed = false)
    (mustNot : session.projection.mustShow edit = false) :
    (takeOther edit session).projection.Awaits master.text outgoing edit := by
  have seeded := sound.wellFormed.seeded edit
  have kept := Projection.seeded_eq session.projection edit
  refine {
    wellFormed := seeded.congr rfl rfl
    whole := (congrArg (·.broken) kept).trans sound.whole
    live := (congrArg (·.disposed) kept).trans live
    idle := (congrArg (·.planned) kept).trans sound.idle
    forwards := (congrArg (·.outgoing) kept).trans (sound.forwards live)
    announced := ⟨_, rfl, ?_⟩ }
  change (session.projection.seeded edit).layout.Foresees edit
    ((session.projection.seeded edit).imageOf? edit)
  rcases Nat.eq_zero_or_pos edit.region.length with empty | nonempty
  · exact (seeded.imageOf?_of_insertion fits inside empty).1
  · have untouched := Projection.untouched_of_mustNot mustNot
    -- Only an insertion is seeded; a removal that is not touched is hidden before and after.
    have hidden := sound.wellFormed.hidden_of_not_touched fits inside untouched
    have same : session.projection.seeded edit = session.projection :=
      Projection.seeded_of_some (.inr nonempty)
    have none := sound.wellFormed.imageOf?_of_hidden nonempty hidden.1
    rw [same, none]
    exact hidden

include fits in
/-- A sound and idle session that forwards nothing shows what it must and takes any other edit as it
comes. -/
theorem prepare_of_soundIdle (word : edit.region.stop < Offset.bound)
    (sound : session.SoundIdle master.text .none) (live : session.projection.disposed = false) :
    prepare notify master edit session =
      if session.projection.mustShow edit then takeShown notify master edit session
      else .done (takeOther edit session) := by
  have free : session.update Projection.forget = session := by
    rw [update, sound.forget_eq]
  have still : session.isForwarding = false := by
    simp [isForwarding, sound.forwards live]
  simp only [prepare, free, noteTouch_eq sound.wellFormed fits word, still, Bool.false_eq_true,
    if_false]

include fits in
theorem anticipate_of_soundIdle (word : edit.region.stop < Offset.bound)
    (sound : session.SoundIdle master.text .none) (live : session.projection.disposed = false) :
    anticipate notify master edit session = breakOnFault
      (if session.projection.mustShow edit then takeShown notify master edit session
        else .done (takeOther edit session)) := by
  rw [anticipate_of_idle live sound.whole sound.idle, prepare_of_soundIdle fits word sound live]

include fits respects inside in
theorem anticipate_awaits (sound : session.SoundIdle master.text .none)
    (live : session.projection.disposed = false) :
    (anticipate notify master edit session).Ends
      (fun session => session.projection.Awaits master.text .none edit)
      (SoundIdle master.text .none) := by
  rw [anticipate_of_soundIdle fits (Region.stop_lt_of_inside inside fits) sound live]
  apply Outcome.Ends.breakOnFault
  split
  · next must => exact takeShown_ends fits respects inside sound live must
  · next mustNot => exact .done (takeOther_awaits fits inside sound live (by simpa using mustNot))

include fits respects inside in
theorem anticipate_ends (sound : session.SoundIdle master.text .none) :
    (anticipate notify master edit session).Ends
      (fun session => session.projection.Ready master.text .none edit)
      (SoundIdle master.text .none) := by
  cases live : session.projection.disposed with
  | true =>
    rw [anticipate, if_pos live]
    exact .done (.inr sound)
  | false =>
    exact (anticipate_awaits fits respects inside sound live).mono (fun _ awaits => .inl awaits)
      fun _ sound => sound

end

theorem anticipate_forwarded {text : Text} {change : Change} (fits : text.length < Offset.bound)
    (word : edit.region.stop < Offset.bound)
    (sound : session.SoundIdle text (.forwarding (some change)))
    (live : session.projection.disposed = false) :
    anticipate notify master edit session = .done (session.update fun projection =>
      { projection.seeded edit with outgoing := .forwarding none }.await edit
        (some { change with edit := some edit })) := by
  have free : session.update Projection.forget = session := by
    rw [update, sound.forget_eq]
  have forwarding : session.isForwarding = true := by
    simp [isForwarding, sound.forwards live]
  have outgoing : (session.projection.seeded edit).outgoing = .forwarding (some change) := by
    rcases Projection.seeded_cases session.projection edit with ⟨-, -, same⟩ | ⟨-, same⟩ <;>
      rw [same] <;> exact sound.forwards live
  rw [anticipate_of_idle live sound.whole sound.idle]
  simp only [prepare, free, noteTouch_eq sound.wellFormed fits word, forwarding, if_true,
    takeForwarded, within, outgoing]
  simp [breakOnFault, Outcome.map, Outcome.done, update]

/-- What becomes of an announced edit, by what holds once the listeners know that it was made. -/
theorem followAnnounced_spec (held : Session μ → Prop) {good : Session μ → Prop}
    {change : Option Change}
    (live : session.projection.disposed = false)
    (pending : session.projection.pending = some ⟨edit, change⟩)
    (told : held (change.elim session fun change => notify master .before change session))
    (closed : ∀ session, held session → session.projection.disposed = true → good session)
    (follows : ∀ session, held session → session.projection.disposed = false →
      ∃ followed, (session.projection.forget.follow edit).patch change = .done followed ∧
        good (reportAny notify master change
          { session.noteDrift edit with projection := followed })) :
    (followAnnounced notify master edit session).Ends good fun _ => False := by
  unfold followAnnounced
  simp only [pending, Option.bind_some]
  split
  · next disposed => exact .done (closed _ told disposed.2)
  · next going =>
    have stillLive : (change.elim session fun change =>
        notify master .before change session).projection.disposed = false := by
      cases change with
      | none => exact live
      | some change => simpa using going
    obtain ⟨followed, patched, holds⟩ := follows _ told stillLive
    have patchedSo : (((change.elim session fun change => notify master .before change
        session).noteDrift edit).projection.forget.follow edit).patch change = .done followed :=
      patched
    simp only [within, patchedSo, Outcome.map, Outcome.done, Outcome.andThen]
    exact .done holds

theorem confirm_of_awaits {text : Text} (awaits : session.projection.Awaits text outgoing edit) :
    confirm notify master edit session =
      breakOnFault (followAnnounced notify master edit session) := by
  obtain ⟨change, pending, -⟩ := awaits.announced
  rw [confirm_of_idle awaits.live awaits.whole awaits.idle, if_pos]
  simp [pending]

theorem confirm_of_soundIdle {text : Text} (sound : session.SoundIdle text outgoing)
    (live : session.projection.disposed = false) :
    confirm notify master edit session =
      breakOnFault (followUnannounced notify master edit session) := by
  rw [confirm_of_idle live sound.whole sound.idle, if_neg]
  simp [sound.free]

section
variable {text : Text} (respects : notify.Respects master)
  (inside : edit.region.Inside text.length) (result : master.text = edit.result text)

include respects inside result in
theorem followAnnounced_ends (awaits : session.projection.Awaits text outgoing edit) :
    (followAnnounced notify master edit session).Ends (SoundIdle master.text outgoing)
      fun _ => False := by
  obtain ⟨change, pending, foreseen⟩ := awaits.announced
  -- With an edit pending, listeners can dispose of the projection but not change its ranges.
  have held : session.projection.Held (change.elim session fun change =>
      notify master .before change session).projection := by
    have before : session.projection.Held session.projection := .inl ⟨_, _, rfl⟩
    cases change with
    | none => exact before
    | some change => exact respects.held _ (by rw [pending]; rfl) .before change session before
  refine followAnnounced_spec (fun told => session.projection.Held told.projection) awaits.live
    pending held (fun told held disposed => held.soundIdle awaits.live awaits.whole disposed)
    fun told held live => ?_
  obtain ⟨patched, sound⟩ :=
    awaits.follows foreseen held live inside
  refine ⟨_, patched, ?_⟩
  rw [← result] at sound ⊢
  cases change with
  | none => exact sound
  | some change => exact respects.rest outgoing _ _ _ sound

include respects inside result in
theorem followUnannounced_ends (sound : session.SoundIdle text outgoing)
    (live : session.projection.disposed = false) :
    (followUnannounced notify master edit session).Ends (SoundIdle master.text outgoing)
      fun _ => False := by
  unfold followUnannounced
  generalize following : ((session.noteDrift edit).update fun projection =>
    projection.forget.follow edit) = followed
  have projected : followed.projection = session.projection.forget.follow edit := by
    rw [← following]
    rfl
  have after : (followed.projection.readFrom master.text).SoundIdle master.text outgoing := by
    rw [projected, result]
    exact Projection.soundIdle_follow sound.wellFormed sound.whole live sound.idle
      (sound.forwards live) inside
  have reread : followed.projection.reread master =
      .ok (followed.projection.layout.textUnder master.text) :=
    Projection.WellFormed.reread_eq after.wellFormed.layout
  simp only [reread]
  -- The listeners are told only if the text is another one now.
  by_cases same : followed.projection.layout.textUnder master.text = followed.projection.text
  · have unchanged : followed.projection.readFrom master.text = followed.projection := by
      rw [Projection.readFrom, same]
    rw [unchanged] at after
    have checked := after.wellFormed.checked_eq
    rw [if_pos same]
    simp only [within, checked, Outcome.map, Outcome.done]
    exact .done after
  · rw [if_neg same]
    generalize told : notify master .before _ _ = heard
    have held : (followed.projection.await edit none).Held heard.projection := by
      rw [← told]
      exact respects.held _ rfl _ _ _ (.inl ⟨_, _, rfl⟩)
    have stillLive : followed.projection.disposed = false := by
      rw [projected]
      exact live
    by_cases disposed : heard.projection.disposed = true
    · have sound : heard.projection.SoundIdle master.text outgoing :=
        held.soundIdle stillLive after.whole disposed
      have forgotten : heard.update Projection.forget = heard := by
        rw [update, sound.forget_eq]
      rw [forgotten, if_pos disposed]
      exact .done sound
    · obtain ⟨options, listeners, unmoved⟩ := held.eq_of_live (by simpa using disposed)
      -- Settings and listeners may have changed, which the invariant does not depend on.
      have finished (projection : Projection)
          (same : projection = (heard.update Projection.forget).projection) :
          { projection with text := followed.projection.layout.textUnder master.text }.SoundIdle
            master.text outgoing := by
        have free : followed.projection.pending = none := after.free
        have settled := Projection.casual_soundIdle.settings _ options
          (Projection.casual_soundIdle.audience _ listeners after)
        simp only [Projection.readFrom, free] at settled
        rw [same, update, unmoved]
        exact settled
      have checked := (finished _ rfl).wellFormed.checked_eq
      rw [if_neg (show ¬ (heard.update Projection.forget).projection.disposed = true from disposed)]
      simp only [within, checked, Outcome.map, Outcome.done, Outcome.andThen]
      exact .done (respects.rest outgoing _ _ _ (finished _ rfl))

include respects inside result in
/-- A session that is ready for an edit is sound for the new text and idle once the edit is confirmed.
Nothing can go wrong any more. -/
theorem confirm_ends (ready : session.projection.Ready text outgoing edit) :
    (confirm notify master edit session).Ends (SoundIdle master.text outgoing) fun _ => False := by
  rcases ready with awaits | rest
  · rw [confirm_of_awaits awaits]
    exact .breakOnFault (followAnnounced_ends respects inside result awaits)
  · cases live : session.projection.disposed with
    | true =>
      -- Without fragments it is well-formed for any text.
      rw [confirm, if_pos live]
      refine .done ?_
      obtain ⟨sound, idle⟩ := rest
      have blank := sound.cleared live
      refine ⟨{ sound with wellFormed := ⟨?_, ?_⟩, current := ?_ }, idle⟩
      · rw [blank]
        exact Layout.WellFormed.nil
      · rw [sound.wellFormed.text_eq, blank]
        rfl
      · rw [idle]
        nofun
    | false =>
      rw [confirm_of_soundIdle rest live]
      exact .breakOnFault (followUnannounced_ends respects inside result rest live)

end

section
variable {region : Region} {text : Text}

theorem editMaster_of_anticipated {middle : Session μ} (inside : region.Inside master.length)
    (anticipated : anticipate notify { master with nextEdit := master.nextEdit + 1 }
      ⟨master.nextEdit, region, text⟩ session = .done middle) :
    editMaster notify master region text session =
      (confirm notify ⟨master.text.splice region text, master.version + 1, master.nextEdit + 1⟩
        ⟨master.nextEdit, region, text⟩ middle).map
        (⟨master.text.splice region text, master.version + 1, master.nextEdit + 1⟩, ·) := by
  simp only [editMaster, Master.prepare_eq inside, anticipated, Outcome.map, Outcome.andThen,
    Outcome.done, Master.commit_prepared inside]

variable (respects : ∀ master : Master, master.length < Offset.bound → notify.Respects master)

include respects in
theorem editMaster_ends (fair : Session μ → Prop)
    (anticipated : region.Inside master.length →
      (anticipate notify { master with nextEdit := master.nextEdit + 1 }
        ⟨master.nextEdit, region, text⟩ session).Ends
          (fun session => session.projection.Ready master.text outgoing
            ⟨master.nextEdit, region, text⟩) fair)
    (unprepared : ¬ region.Inside master.length → fair session)
    (fitsAfter : (editMaster notify master region text session).state.1.length < Offset.bound) :
    (editMaster notify master region text session).Ends
      (fun edited => edited.1.text = master.text.splice region text ∧
        edited.1.version = master.version + 1 ∧ edited.2.SoundIdle edited.1.text outgoing)
      (fun edited => edited.1.text = master.text ∧ edited.1.version = master.version ∧
        fair edited.2) := by
  unfold editMaster at fitsAfter ⊢
  by_cases inside : region.Inside master.length
  · simp only [Master.prepare_eq inside] at fitsAfter ⊢
    have heard := anticipated inside
    cases result : anticipate notify { master with nextEdit := master.nextEdit + 1 }
        ⟨master.nextEdit, region, text⟩ session with
    | mk after error =>
      rw [result] at heard fitsAfter
      cases error with
      | some error =>
        -- What goes wrong while the edit is announced keeps it from being committed.
        exact .fail (heard.fair error rfl).1 ⟨rfl, rfl, (heard.fair error rfl).2⟩
      | none =>
        simp only [Outcome.map, Outcome.andThen, Master.commit_prepared inside] at fitsAfter ⊢
        have confirmed := confirm_ends (respects _ fitsAfter) inside rfl
          (heard.good rfl)
        exact confirmed.map (fun _ sound => ⟨rfl, rfl, sound⟩) fun _ never => never.elim
  · simp only [Master.prepare_eq_error inside]
    exact .fail rfl ⟨rfl, rfl, unprepared inside⟩

include respects in
theorem editMaster_soundIdle (fits : master.length < Offset.bound)
    (sound : session.SoundIdle master.text .none)
    (fitsAfter : (editMaster notify master region text session).state.1.length < Offset.bound) :
    (editMaster notify master region text session).Ends
      (fun edited => edited.1.text = master.text.splice region text ∧
        edited.1.version = master.version + 1 ∧ edited.2.SoundIdle edited.1.text .none)
      (fun edited => edited.1.text = master.text ∧ edited.1.version = master.version ∧
        edited.2.SoundIdle master.text .none) :=
  editMaster_ends respects _
    (fun inside => anticipate_ends fits (respects _ fits) inside sound) (fun _ => sound) fitsAfter

end

/-! Edits of the projection -/

theorem beginForwarding_cases {projection : Projection} {text : Text}
    (sound : projection.Sound text outgoing) (image : Region) (replacement : Text) :
    (∃ error, projection.beginForwarding image replacement = .error error ∧
      error.isFault = false) ∨
      (projection.disposed = false ∧ projection.refuses? = none ∧
        image.Inside projection.length) := by
  have refuses := sound.refuses?_eq
  cases live : projection.disposed with
  | true =>
    rw [live, if_pos rfl] at refuses
    exact .inl ⟨.disposed, by simp [Projection.beginForwarding, refuses], rfl⟩
  | false =>
    rw [live, if_neg Bool.false_ne_true] at refuses
    by_cases inside : image.Inside projection.length
    · exact .inr ⟨rfl, refuses, inside⟩
    · have outside : projection.outside? image =
          some (.outsideText image projection.length) := if_neg inside
      exact .inl ⟨_, by simp only [Projection.beginForwarding, refuses, outside]; rfl, rfl⟩

theorem anticipate_forwarding {projection : Projection} {image : Region} {text : Text}
    (fits : text.length < Offset.bound) (inside : edit.region.Inside text.length)
    (sound : projection.SoundIdle text outgoing) (live : projection.disposed = false) :
    anticipate notify master edit { session with projection := { projection with
        outgoing := .forwarding (some ⟨.content, image, edit.text, edit.region, none⟩) } } =
      .done { session with projection := projection.awaitForwarded image edit } := by
  have forwarding : SoundIdle text
      (.forwarding (some ⟨.content, image, edit.text, edit.region, none⟩))
      { session with projection := { projection with
        outgoing := .forwarding (some ⟨.content, image, edit.text, edit.region, none⟩) } } :=
    { sound with
      wellFormed := sound.wellFormed.congr rfl rfl
      forwards := fun _ => rfl }
  rw [anticipate_forwarded fits (Region.stop_lt_of_inside inside fits) forwarding live]
  simp only [update, Projection.seeded_outgoing]
  rfl

theorem soundIdle_endForwarding {text : Text} (sound : session.SoundIdle text outgoing) :
    (session.update Projection.endForwarding).SoundIdle text .none where
  wellFormed := sound.wellFormed.congr rfl rfl
  whole := sound.whole
  free := rfl
  current := sound.current
  cleared := sound.cleared
  forwards _ := rfl
  idle := sound.idle

section
variable {image : Region} {text : Text} (fits : master.length < Offset.bound)
  (respects : ∀ master : Master, master.length < Offset.bound → notify.Respects master)

include fits respects in
theorem replace_soundIdle (sound : session.SoundIdle master.text .none)
    (fitsAfter : (replace notify master image text session).state.1.length < Offset.bound) :
    (replace notify master image text session).Ends
      (fun edited => edited.2.SoundIdle edited.1.text .none)
      (fun edited => edited.2.SoundIdle edited.1.text .none) := by
  unfold replace at fitsAfter ⊢
  rcases beginForwarding_cases sound.toSound image text with
    ⟨error, refused, refusal⟩ | ⟨live, ready, inside⟩
  · simp only [refused]
    exact .fail refusal sound
  · obtain ⟨origin, begun, originInside, -, foreseen⟩ :=
      sound.wellFormed.exists_beginForwarding fits ready inside text
    obtain ⟨admits, place⟩ := foreseen ⟨master.nextEdit, origin, text⟩ rfl
    simp only [begun] at fitsAfter ⊢
    have edited := editMaster_ends respects (fun _ => False)
      (fun _ => by
        rw [anticipate_forwarding fits originInside sound live]
        exact .done (.inl (sound.awaits_forwarded live admits place)))
      (fun outside => outside originInside) fitsAfter
    exact edited.map (fun _ made => soundIdle_endForwarding made.2.2) fun _ never => never.2.2.elim

end

end Session

end TextProjection
