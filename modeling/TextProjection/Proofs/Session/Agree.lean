import TextProjection.Proofs.Layout.Converge
import TextProjection.Proofs.Session.Replace
import TextProjection.Proofs.Session.Reveal
import TextProjection.Proofs.Session.Usual

/-! An edit can reach a projection in several ways: it is made in the projection, or in the master,
announced or not. Where listeners only look on, the projection is the same in the end.
-/

set_option autoImplicit false

namespace TextProjection

namespace Projection

def source? (projection : Projection) (image : Region) : Option Region :=
  if projection.layout.isEmpty then some ⟨0, 0⟩ else projection.layout.hull? image

theorem source?_of_begun {projection forwarding : Projection} {image origin : Region} {text : Text}
    (begun : projection.beginForwarding image text = .ok (origin, forwarding)) :
    projection.source? image = some origin := by
  unfold beginForwarding at begun
  unfold source?
  split at begun
  · cases begun
  · simp only at begun
    split at begun
    · cases begun
    · next found =>
      cases begun
      exact found

variable {projection : Projection} {master : Text} {edit : Edit}

theorem WellFormed.reveals_of_admits (wf : projection.WellFormed master)
    (fits : master.length < Offset.bound) (inside : edit.region.Inside master.length)
    (admits : (projection.seeded edit).layout.Admits edit.region.offset) :
    projection.Reveals edit.region := by
  rw [wf.reveals_iff fits inside]
  rcases (WellFormed.admits_seeded edit _).mp admits with admits | ⟨none, empty, start⟩
  · left
    cases touched : projection.isTouchedBy edit with
    | true => simp [mustShow, touched]
    | false => exact absurd admits (wf.hidden_of_not_touched fits inside touched).1
  · exact .inr ⟨none, start, empty⟩

end Projection

namespace Session

variable {μ : Type} {notify : Notifier μ} {master : Master} {outgoing : Outgoing}
  {session middle : Session μ} {region : Region} {text : Text} {edit : Edit}

theorem editMaster_spared
    (spares : notify.Spares
      ⟨master.text.splice region text, master.version + 1, master.nextEdit + 1⟩)
    (fitsAfter : (master.text.splice region text).length < Offset.bound)
    (inside : region.Inside master.length)
    (anticipated : anticipate notify { master with nextEdit := master.nextEdit + 1 }
      ⟨master.nextEdit, region, text⟩ session = .done middle)
    (awaits : middle.projection.Awaits master.text outgoing ⟨master.nextEdit, region, text⟩) :
    let edited := editMaster notify master region text session
    edited.error = none ∧
      edited.state.1 =
        ⟨master.text.splice region text, master.version + 1, master.nextEdit + 1⟩ ∧
      edited.state.2.projection.layout =
        (middle.projection.follow ⟨master.nextEdit, region, text⟩).layout ∧
      edited.state.2.projection.text =
        edited.state.2.projection.layout.textUnder (master.text.splice region text) := by
  obtain ⟨success, layout, read⟩ := (confirm_spared spares fitsAfter inside rfl awaits).success
  rw [editMaster_of_anticipated inside anticipated]
  exact ⟨success, rfl, layout, read⟩

theorem replace_spared {image : Region}
    (spares : notify.Spares
      ⟨master.text.splice region text, master.version + 1, master.nextEdit + 1⟩)
    (fits : master.length < Offset.bound)
    (fitsAfter : (master.text.splice region text).length < Offset.bound)
    (inside : region.Inside master.length) (sound : session.SoundIdle master.text outgoing)
    (live : session.projection.disposed = false)
    (begun : session.projection.beginForwarding image text = .ok (region, { session.projection with
      outgoing := .forwarding (some ⟨.content, image, text, region, none⟩) }))
    (foreseen : ∀ edit : Edit, edit.region = region →
      (session.projection.seeded edit).layout.Admits region.offset ∧
        (session.projection.seeded edit).layout.place region = image) :
    let replaced := replace notify master image text session
    let edit : Edit := ⟨master.nextEdit, region, text⟩
    replaced.error = none ∧
      replaced.state.1 =
        ⟨master.text.splice region text, master.version + 1, master.nextEdit + 1⟩ ∧
      replaced.state.2.projection.layout = ((session.projection.seeded edit).follow edit).layout ∧
      replaced.state.2.projection.text =
        replaced.state.2.projection.layout.textUnder (master.text.splice region text) := by
  obtain ⟨admits, place⟩ := foreseen ⟨master.nextEdit, region, text⟩ rfl
  have awaits : ({ session with
      projection := session.projection.awaitForwarded image ⟨master.nextEdit, region, text⟩ } :
        Session μ).projection.Awaits master.text (.forwarding none)
          ⟨master.nextEdit, region, text⟩ :=
    sound.awaits_forwarded live admits place
  obtain ⟨success, layout, read⟩ := (confirm_spared spares fitsAfter inside rfl awaits).success
  rw [replace_of_begun fits sound live begun inside]
  exact ⟨success, rfl, layout, read⟩

/-- The two directions of editing agree: it makes no difference whether text is replaced in the
projection or, in the master, all that stands behind it. -/
theorem replace_agrees {audience : Audience μ} (passive : audience.Passive)
    (usualIdle : session.UsualIdle master.text) {image : Region}
    (inside : image.Inside session.projection.length) (fits : master.length < Offset.bound)
    (fitsAfter : (replace (publish audience) master image text session).state.1.length <
      Offset.bound) :
    ∃ origin, session.projection.source? image = some origin ∧
      let replaced := replace (publish audience) master image text session
      let edited := editMaster (publish audience) master origin text session
      replaced.error = none ∧ edited.error = none ∧ replaced.state.1 = edited.state.1 ∧
        replaced.state.2.projection.layout = edited.state.2.projection.layout ∧
        replaced.state.2.projection.text = edited.state.2.projection.text := by
  obtain ⟨origin, begun, originInside, -, foreseen⟩ :=
    usualIdle.sound.wellFormed.exists_beginForwarding fits usualIdle.refuses? inside text
  obtain ⟨⟨live, drained, usual⟩, sound⟩ := usualIdle
  have fitsResult : (master.text.splice origin text).length < Offset.bound := by
    rw [replace_of_begun fits sound live begun originInside] at fitsAfter
    exact fitsAfter
  have insideEdit : (Edit.mk master.nextEdit origin text).region.Inside master.text.length :=
    originInside
  have fitsBumped : Master.length { master with nextEdit := master.nextEdit + 1 } < Offset.bound :=
    fits
  obtain ⟨middle, anticipated, awaits, enlarges, reveals⟩ := anticipate_informs
    (publish_informs passive) drained fitsBumped insideEdit sound live usual
  obtain ⟨replaceDone, replaceMaster, replaceLayout, replaceText⟩ := replace_spared
    (publish_spares passive) fits fitsResult originInside sound live begun foreseen
  obtain ⟨editDone, editMaster, editLayout, editText⟩ := editMaster_spared
    (publish_spares passive) fitsResult originInside anticipated awaits
  -- One path leaves gaps in the region and the other fills them, but they are removed anyway.
  have same : _ = _ := (sound.wellFormed.seeded ⟨master.nextEdit, origin, text⟩).layout.follow_congr
    awaits.wellFormed.layout insideEdit (foreseen _ rfl).1
    (reveals.mpr (sound.wellFormed.reveals_of_admits fits insideEdit (foreseen _ rfl).1))
    fun position outside => (Projection.WellFormed.shows_seeded _ position).trans
      (enlarges.outside position outside).symm
  have layouts := replaceLayout.trans (same.trans editLayout.symm)
  refine ⟨origin, Projection.source?_of_begun begun, replaceDone, editDone,
    replaceMaster.trans editMaster.symm, layouts, ?_⟩
  rw [replaceText, editText, layouts]

/-- The region runs across the hidden character. -/
theorem replace_agrees_across :
    let replaced := replace (publish .counting) { text := ['a', 'b', 'c', 'd', 'e'] } ⟨1, 2⟩ ['x']
      twoEnds
    ∃ origin, twoEnds.projection.source? ⟨1, 2⟩ = some origin ∧
      let edited := editMaster (publish .counting) { text := ['a', 'b', 'c', 'd', 'e'] } origin ['x']
        twoEnds
      replaced.error = none ∧ edited.error = none ∧ replaced.state.1 = edited.state.1 ∧
        replaced.state.2.projection.layout = edited.state.2.projection.layout ∧
        replaced.state.2.projection.text = edited.state.2.projection.text := by
  have inside : Region.Inside ⟨1, 2⟩ twoEnds.projection.length := by decide
  have fits : Master.length { text := ['a', 'b', 'c', 'd', 'e'] } < Offset.bound := by decide
  have fitsAfter : (replace (publish .counting) { text := ['a', 'b', 'c', 'd', 'e'] } ⟨1, 2⟩ ['x']
      twoEnds).state.1.length < Offset.bound := by decide
  exact replace_agrees Audience.counting_passive twoEnds_usualIdle inside fits fitsAfter

/-! Edits that were not announced -/

theorem confirm_unannounced_spared {before : Text} (spares : notify.Spares master)
    (fits : master.length < Offset.bound)
    (inside : edit.region.Inside before.length) (result : master.text = edit.result before)
    (sound : session.SoundIdle before outgoing) (live : session.projection.disposed = false) :
    (confirm notify master edit session).Ends
      (fun after => after.projection.layout = (session.projection.follow edit).layout ∧
        after.projection.text = after.projection.layout.textUnder master.text)
      fun _ => False := by
  have fitsAfter : (edit.result before).length < Offset.bound := result ▸ fits
  rw [confirm_of_soundIdle sound live]
  apply Outcome.Ends.breakOnFault
  unfold followUnannounced
  generalize following : ((session.noteDrift edit).update fun projection =>
    projection.forget.follow edit) = followed
  have projected : followed.projection = session.projection.forget.follow edit := by
    rw [← following]
    rfl
  have layout : followed.projection.layout = (session.projection.follow edit).layout := by
    rw [projected]
    rfl
  have wf : (followed.projection.readFrom master.text).WellFormed master.text := by
    rw [projected, result]
    exact (Projection.soundIdle_follow sound.wellFormed sound.whole live sound.idle
      (sound.forwards live) inside).wellFormed
  have reread : followed.projection.reread master =
      .ok (followed.projection.layout.textUnder master.text) :=
    Projection.WellFormed.reread_eq wf.layout
  simp only [reread]
  -- The listeners are told only if the text is another one now.
  by_cases same : followed.projection.layout.textUnder master.text = followed.projection.text
  · have unchanged : followed.projection.readFrom master.text = followed.projection := by
      rw [Projection.readFrom, same]
    rw [unchanged] at wf
    rw [if_pos same]
    simp only [within, wf.checked_eq, Outcome.map, Outcome.done]
    exact .done ⟨layout, same.symm⟩
  · rw [if_neg same]
    generalize told : notify master .before _ _ = heard
    obtain ⟨listeners, unmoved⟩ : ∃ listeners,
        heard.projection = { followed.projection.await edit none with listeners } := by
      rw [← told]
      exact spares _ _ _ _ ⟨_, rfl⟩
    have stillLive : ¬ (heard.update Projection.forget).projection.disposed = true := by
      simp [update, unmoved, Projection.forget, Projection.await, projected, Projection.follow, live]
    generalize reread : { (heard.update Projection.forget).projection with
      text := followed.projection.layout.textUnder master.text } = anew
    have kept : anew.layout = followed.projection.layout ∧
        anew.text = followed.projection.layout.textUnder master.text := by
      rw [← reread, update, unmoved]
      exact ⟨rfl, rfl⟩
    have checked : anew.checked = .done anew := (wf.congr kept.1 kept.2).checked_eq
    rw [if_neg stillLive]
    simp only [within, reread, checked, Outcome.map, Outcome.done, Outcome.andThen, report]
    refine .done ?_
    generalize noted : Session.record _ _ = reported
    have current : reported.projection = anew := by
      rw [← noted]
      rfl
    obtain ⟨_, spared⟩ := spares anew .after _ reported ⟨anew.listeners, current⟩
    rw [spared]
    exact ⟨kept.1.trans layout, kept.2.trans (by rw [kept.1])⟩

/-- What an announced edit leaves before it is followed makes no difference where the edit fits in or
may stay hidden. -/
theorem anticipate_follows (informs : notify.Informs) (usualIdle : session.UsualIdle master.text)
    (some : session.projection.layout.pairs ≠ []) (fits : master.length < Offset.bound)
    (inside : edit.region.Inside master.length)
    (plain : session.projection.layout.Admits edit.region.offset ∨
      session.projection.mustShow edit = false) :
    ∃ middle, anticipate notify master edit session = .done middle ∧
      middle.projection.Awaits master.text .none edit ∧
      (middle.projection.follow edit).layout = (session.projection.follow edit).layout := by
  obtain ⟨⟨live, drained, usual⟩, sound⟩ := usualIdle
  obtain ⟨middle, anticipated, awaits, enlarges, reveals⟩ :=
    anticipate_informs informs drained fits inside sound live usual
  refine ⟨middle, anticipated, awaits, ?_⟩
  rcases plain with admits | mustNot
  · have revealed : session.projection.Reveals edit.region := sound.wellFormed.reveals_of_admits fits
      inside ((Projection.WellFormed.admits_seeded edit _).mpr (.inl admits))
    exact awaits.wellFormed.layout.follow_congr sound.wellFormed.layout inside
      (reveals.mpr revealed) admits enlarges.outside
  · -- Such an edit is taken as it comes, and there is nothing to be seeded.
    rw [anticipate_of_soundIdle fits (Region.stop_lt_of_inside inside fits) sound live,
      if_neg (by simp [mustNot])] at anticipated
    obtain rfl : takeOther edit session = middle := congrArg Outcome.state anticipated
    have unseeded : session.projection.seeded edit = session.projection :=
      Projection.seeded_of_some (.inl some)
    simp only [takeOther, update, unseeded]
    rfl

/-- Following an edit step by step agrees with hearing of it afterwards: where the edit fits in or may
stay hidden, it makes no difference whether it was announced. -/
theorem editMaster_agrees {audience : Audience μ} (passive : audience.Passive)
    (usualIdle : session.UsualIdle master.text) (some : session.projection.layout.pairs ≠ [])
    (inside : region.Inside master.length) (fits : master.length < Offset.bound)
    (fitsAfter : (master.text.splice region text).length < Offset.bound)
    (plain : session.projection.layout.Admits region.offset ∨
      session.projection.mustShow ⟨master.nextEdit, region, text⟩ = false) :
    ∃ edit later, master.replace region text = .ok (edit, later) ∧
      let announced := editMaster (publish audience) master region text session
      let unannounced := confirm (publish audience) later edit session
      announced.error = none ∧ unannounced.error = none ∧ announced.state.1 = later ∧
        announced.state.2.projection.layout = unannounced.state.projection.layout ∧
        announced.state.2.projection.text = unannounced.state.projection.text := by
  have committed : Master.commit { master with nextEdit := master.nextEdit + 1 }
      ⟨master.nextEdit, region, text⟩ = _ := Master.commit_eq inside
  have replaced : master.replace region text = .ok (⟨master.nextEdit, region, text⟩,
      ⟨master.text.splice region text, master.version + 1, master.nextEdit + 1⟩) := by
    simp only [Master.replace, Master.prepare_eq inside]
    exact congrArg (Except.map (Prod.mk _)) committed
  have insideEdit : (Edit.mk master.nextEdit region text).region.Inside master.text.length := inside
  have fitsBumped : Master.length { master with nextEdit := master.nextEdit + 1 } < Offset.bound :=
    fits
  have usualIdleBumped : session.UsualIdle { master with nextEdit := master.nextEdit + 1 }.text :=
    usualIdle
  obtain ⟨middle, anticipated, awaits, same⟩ := anticipate_follows (publish_informs passive)
    usualIdleBumped some fitsBumped insideEdit plain
  obtain ⟨editDone, editMaster, editLayout, editText⟩ := editMaster_spared
    (publish_spares passive) fitsAfter inside anticipated awaits
  have followed : (confirm (publish audience)
      ⟨master.text.splice region text, master.version + 1, master.nextEdit + 1⟩
      ⟨master.nextEdit, region, text⟩ session).Ends _ _ :=
    confirm_unannounced_spared (publish_spares passive) fitsAfter insideEdit rfl usualIdle.sound
      usualIdle.live
  obtain ⟨confirmDone, confirmLayout, confirmText⟩ := followed.success
  have layouts := editLayout.trans (same.trans confirmLayout.symm)
  refine ⟨_, _, replaced, editDone, confirmDone, editMaster, layouts, ?_⟩
  rw [editText, confirmText, layouts]

/-- The edit removes the hidden character and one on each side of it. -/
theorem editMaster_agrees_across :
    ∃ edit later,
      Master.replace { text := ['a', 'b', 'c', 'd', 'e'] } ⟨1, 3⟩ ['x'] = .ok (edit, later) ∧
      let announced := editMaster (publish .counting) { text := ['a', 'b', 'c', 'd', 'e'] } ⟨1, 3⟩
        ['x'] twoEnds
      let unannounced := confirm (publish .counting) later edit twoEnds
      announced.error = none ∧ unannounced.error = none ∧ announced.state.1 = later ∧
        announced.state.2.projection.layout = unannounced.state.projection.layout ∧
        announced.state.2.projection.text = unannounced.state.projection.text := by
  have inside : Region.Inside ⟨1, 3⟩ (Master.length { text := ['a', 'b', 'c', 'd', 'e'] }) := by
    decide
  have fitsAfter : (Text.splice ['a', 'b', 'c', 'd', 'e'] ⟨1, 3⟩ ['x']).length < Offset.bound := by
    decide
  exact editMaster_agrees Audience.counting_passive twoEnds_usualIdle (by decide) inside (by decide)
    fitsAfter (.inl (.inl (by decide)))

end Session

end TextProjection
