import TextProjection.Proofs.Session.Edit
import TextProjection.Proofs.Session.Passive

/-! Edits of a projection whose listeners only look on. For the projection they are edits of a
plain text, and in the master they replace just what stands behind the region.
-/

set_option autoImplicit false

namespace TextProjection

/-- A region of the projection was replaced, and its origin in the master. -/
structure Projection.Replaced (before after : Projection) (master master' : Text)
    (image origin : Region) (text : Text) : Prop where
  originates : before.layout.Originates image origin
  inside : origin.Inside master.length
  master_eq : master' = master.splice origin text
  text_eq : after.text = before.text.splice image text
  outside : before.layout.SameOutside after.layout origin text
  wellFormed : after.WellFormed master'

/-- An edit that comes from a region of the projection is followed to just that effect. -/
theorem Projection.WellFormed.replaced {before after : Projection} {master : Text} {edit : Edit}
    {image : Region} (wf : before.WellFormed master)
    (inside : edit.region.Inside master.length)
    (originates : before.layout.Originates image edit.region)
    (admits : (before.seeded edit).layout.Admits edit.region.offset)
    (place : (before.seeded edit).layout.place edit.region = image)
    (layout : after.layout = ((before.seeded edit).follow edit).layout)
    (read : after.text = after.layout.textUnder (edit.result master)) :
    before.Replaced after master (edit.result master) image edit.region edit.text := by
  have seeded := wf.seeded edit
  obtain ⟨followed, shows⟩ := seeded.follow inside
  have foreseen : (before.seeded edit).layout.Foresees edit
      (some ⟨.content, image, edit.text, edit.region, some edit⟩) :=
    ⟨admits, place.symm, rfl, rfl, rfl⟩
  have text := seeded.textUnder_follow inside foreseen
  have same := Layout.sameOutside_of_showsAfter shows
  have kept : (before.seeded edit).text = before.text :=
    congrArg (·.text) (seeded_eq before edit)
  refine {
    originates := originates
    inside := inside
    master_eq := rfl
    text_eq := ?_
    outside := ⟨fun position below => ?_, fun i => ?_⟩
    wellFormed := ⟨layout ▸ followed.layout, read⟩ }
  · rw [read, layout, text, Option.elim_some, kept]
  · rw [layout, same.below position below, WellFormed.shows_seeded]
  · rw [layout, same.above i, WellFormed.shows_seeded]

namespace Session

variable {μ : Type} {notify : Notifier μ} {master : Master} {outgoing : Outgoing}
  {session : Session μ} {edit : Edit} {text : Text}

/-- Where listeners do not interfere, an edit that was announced is followed and the text is the
one under the fragments. -/
theorem confirm_spared (spares : notify.Spares master)
    (fits : master.length < Offset.bound) (inside : edit.region.Inside text.length)
    (result : master.text = edit.result text)
    (awaits : session.projection.Awaits text outgoing edit) :
    (confirm notify master edit session).Ends
      (fun after => after.projection.layout = (session.projection.follow edit).layout ∧
        after.projection.text = after.projection.layout.textUnder master.text)
      fun _ => False := by
  obtain ⟨change, pending, foreseen⟩ := awaits.announced
  have fitsAfter : (edit.result text).length < Offset.bound := result ▸ fits
  -- Nothing but the listeners is different from what would become of the projection without them.
  suffices followed : (confirm notify master edit session).Ends
      (fun after => ∃ listeners, after.projection =
        { (session.projection.forget.follow edit).readFrom master.text with listeners })
      fun _ => False by
    refine followed.mono (fun after same => ?_) fun _ never => never
    obtain ⟨listeners, same⟩ := same
    rw [same]
    exact ⟨rfl, rfl⟩
  rw [confirm_of_awaits awaits]
  apply Outcome.Ends.breakOnFault
  apply followAnnounced_spec (fun told => ∃ listeners,
    told.projection = { session.projection with listeners }) awaits.live pending
  · cases change with
    | none => exact ⟨_, rfl⟩
    | some change => exact spares _ .before change session ⟨_, rfl⟩
  · rintro told ⟨listeners, same⟩ disposed
    rw [same] at disposed
    cases awaits.live.symm.trans disposed
  · rintro told ⟨listeners, same⟩ -
    have forgotten : told.projection.forget.WellFormed text := by
      rw [same]
      exact awaits.wellFormed.congr rfl rfl
    have known : told.projection.forget.layout.Foresees edit change := by
      rw [same]
      exact foreseen
    have followed : ∃ listeners, (told.projection.forget.follow edit).readFrom (edit.result text) =
        { (session.projection.forget.follow edit).readFrom master.text with listeners } := by
      rw [same, result]
      exact ⟨listeners, rfl⟩
    refine ⟨_, forgotten.patch_follow inside known, ?_⟩
    cases change with
    | none => exact followed
    | some change => exact spares _ .after change _ followed

theorem replace_of_begun {image origin : Region} (fits : master.length < Offset.bound)
    (sound : session.projection.SoundIdle master.text outgoing)
    (live : session.projection.disposed = false)
    (begun : session.projection.beginForwarding image text = .ok (origin, { session.projection with
      outgoing := .forwarding (some ⟨.content, image, text, origin, none⟩) }))
    (inside : origin.Inside master.length) :
    replace notify master image text session =
      (confirm notify ⟨master.text.splice origin text, master.version + 1, master.nextEdit + 1⟩
        ⟨master.nextEdit, origin, text⟩ { session with
          projection := session.projection.awaitForwarded image ⟨master.nextEdit, origin, text⟩ }).map
        fun session => (⟨master.text.splice origin text, master.version + 1, master.nextEdit + 1⟩,
          session.update Projection.endForwarding) := by
  have anticipated : anticipate notify { master with nextEdit := master.nextEdit + 1 }
      ⟨master.nextEdit, origin, text⟩ { session with projection := { session.projection with
        outgoing := .forwarding (some ⟨.content, image, text, origin, none⟩) } } = _ :=
    anticipate_forwarding fits inside sound live
  simp only [replace, begun, editMaster_of_anticipated inside anticipated]
  rfl

/-- An edit of a projection succeeds. Its text changes like any text, and what is shown of the
master stays the same outside of the origin. -/
theorem replace_replaced {audience : Audience μ} (passive : audience.Passive)
    (wf : session.projection.WellFormed master.text) (live : session.projection.disposed = false)
    (whole : session.projection.broken = false) (free : session.projection.pending = none)
    (idle : session.projection.planned = none) {image : Region}
    (inside : image.Inside session.projection.length) (fits : master.length < Offset.bound)
    (fitsAfter : (replace (publish audience) master image text session).state.1.length <
      Offset.bound) :
    (replace (publish audience) master image text session).error = none ∧
      ∃ origin, session.projection.Replaced
        (replace (publish audience) master image text session).state.2.projection master.text
        (replace (publish audience) master image text session).state.1.text image origin text := by
  have sound := wf.soundIdle live whole free idle
  have ready : session.projection.refuses? = none := by
    rw [sound.refuses?_eq, live]
    rfl
  obtain ⟨origin, begun, originInside, originates, foreseen⟩ :=
    wf.exists_beginForwarding fits ready inside text
  obtain ⟨admits, place⟩ := foreseen ⟨master.nextEdit, origin, text⟩ rfl
  rw [replace_of_begun fits sound live begun originInside] at fitsAfter ⊢
  have awaits : ({ session with
      projection := session.projection.awaitForwarded image ⟨master.nextEdit, origin, text⟩ } :
        Session μ).projection.Awaits master.text (.forwarding none)
          ⟨master.nextEdit, origin, text⟩ :=
    sound.awaits_forwarded live admits place
  have fitsResult : (Edit.result ⟨master.nextEdit, origin, text⟩ master.text).length <
      Offset.bound := fitsAfter
  obtain ⟨success, layout, read⟩ := (confirm_spared (publish_spares passive) fitsAfter
    originInside rfl awaits).success
  exact ⟨success, origin,
    wf.replaced originInside originates admits place layout read⟩

/-- The region runs across the hidden character. -/
theorem replace_replaced_across :
    let edited := replace (publish .counting) { text := ['a', 'b', 'c', 'd', 'e'] } ⟨1, 2⟩ ['x']
      twoEnds
    edited.error = none ∧ edited.state.2.projection.text = ['a', 'x', 'e'] ∧
      edited.state.2.projection.WellFormed ['a', 'x', 'e'] := by
  have inside : Region.Inside ⟨1, 2⟩ twoEnds.projection.length := by decide
  have fits : Master.length { text := ['a', 'b', 'c', 'd', 'e'] } < Offset.bound := by decide
  have fitsAfter : (replace (publish .counting) { text := ['a', 'b', 'c', 'd', 'e'] } ⟨1, 2⟩ ['x']
      twoEnds).state.1.length < Offset.bound := by decide
  obtain ⟨success, _, replaced⟩ := replace_replaced Audience.counting_passive twoEnds_wellFormed rfl
    rfl rfl rfl inside fits fitsAfter
  exact ⟨success, replaced.text_eq, replaced.wellFormed⟩

end Session

end TextProjection
