import TextProjection.Proofs.Layout.Translation
import TextProjection.Proofs.Session.Busy
import TextProjection.Proofs.Session.Fill
import TextProjection.Proofs.Session.Moment
import TextProjection.Proofs.Session.Pending

/-! What an announced edit meets. Once the announcement was accepted, the projection shows all that
the edit removes, under one fragment, or it shows nothing of it, and it knows beforehand what the edit
will do. There is nothing in between, whatever the listeners did while the hidden parts were filled.
-/

set_option autoImplicit false

namespace TextProjection

namespace Layout

/-- One fragment takes in the whole region. An empty region has to stand at a fragment, inside one or
where the last one ends. -/
def Embraces (layout : Layout) (region : Region) : Prop :=
  if region.length = 0 then
    (∃ pair ∈ layout.pairs, pair.fragment.Holds region.offset) ∨
      ∃ last, layout.pairs.getLast? = some last ∧ last.fragment.stop = region.offset
  else
    ∃ pair ∈ layout.pairs,
      pair.fragment.offset ≤ region.offset ∧ region.stop ≤ pair.fragment.stop

variable {layout : Layout} {size : Nat} {region : Region}

theorem embraces_of_admits (empty : region.length = 0) (admits : layout.Admits region.offset) :
    layout.Embraces region := by
  rw [Embraces, if_pos empty]
  rcases admits with ⟨pair, member, -, start, stop⟩ | last
  · exact .inl ⟨pair, member, start, .inl stop⟩
  · exact .inr last

namespace WellFormed

theorem embraces_of_shown (wf : layout.WellFormed size) (nonempty : 0 < region.length)
    (shown : ∀ position, region.Covers position → layout.Shows position) : layout.Embraces region := by
  obtain ⟨front, pair, back, split, start, stop⟩ :=
    wf.exists_cover nonempty fun position low high => shown position ⟨low, high⟩
  rw [Embraces, if_neg (by omega)]
  exact ⟨pair, member_of_split split, start, stop⟩

theorem exists_image (wf : layout.WellFormed size)
    (word : region.stop < Offset.bound) (embraced : layout.Embraces region) :
    ∃ image, layout.image? region = some image ∧ image.length = region.length := by
  unfold Embraces at embraced
  split at embraced
  · next empty =>
    have admits : layout.Admits region.offset := by
      rcases embraced with ⟨pair, member, holds⟩ | last
      · obtain ⟨front, back, split⟩ := List.append_of_mem member
        exact wf.admits_of_holds split holds
      · exact .inr last
    rw [image?_of_empty word empty, wf.imageOffset?_of_admits admits]
    exact ⟨_, rfl, empty.symm⟩
  · next solid =>
    obtain ⟨pair, member, start, stop⟩ := embraced
    obtain ⟨front, back, split⟩ := List.append_of_mem member
    exact ⟨_, wf.image?_of_cover word split (Nat.pos_of_ne_zero solid) start stop, rfl⟩

end WellFormed

end Layout

namespace Projection

/-- The edit is visible as a whole, and its exact image is known. -/
structure Exposes (edit : Edit) (projection : Projection) : Prop where
  embraced : projection.layout.Embraces edit.region
  known : ∃ image, projection.layout.image? edit.region = some image ∧
    image.length = edit.region.length ∧
    projection.pending = some ⟨edit, some ⟨.content, image, edit.text, edit.region, some edit⟩⟩

/-- Nothing of the edit is visible, and nothing will become of the projection text. -/
structure Conceals (edit : Edit) (projection : Projection) : Prop where
  hidden : ∀ position, edit.region.Covers position → ¬ projection.layout.Shows position
  unplaced : edit.region.length = 0 → projection.layout.imageOffset? edit.region.offset = none
  known : projection.pending = some ⟨edit, none⟩

namespace WellFormed

variable {projection : Projection} {master : Text} {edit : Edit}
  (wf : projection.WellFormed master) (fits : master.length < Offset.bound)
  (inside : edit.region.Inside master.length)

include wf fits inside

theorem exposes (embraced : projection.layout.Embraces edit.region) :
    ∃ change, projection.imageOf? edit = some change ∧
      (projection.await edit (some change)).Exposes edit := by
  have word : edit.region.stop < Offset.bound := Region.stop_lt_of_inside inside fits
  obtain ⟨image, found, length⟩ := wf.layout.exists_image word embraced
  refine ⟨⟨.content, image, edit.text, edit.region, some edit⟩, ?_, embraced,
    image, found, length, rfl⟩
  rw [imageOf?, found]
  rfl

theorem conceals (refused : ¬ projection.layout.Admits edit.region.offset)
    (hidden : ∀ position, edit.region.Covers position → ¬ projection.layout.Shows position) :
    (projection.await edit (projection.imageOf? edit)).Conceals edit := by
  have word : edit.region.stop < Offset.bound := Region.stop_lt_of_inside inside fits
  have unplaced := wf.layout.imageOffset?_eq_none refused
  have none : projection.imageOf? edit = none := by
    rcases Nat.eq_zero_or_pos edit.region.length with empty | nonempty
    · rw [imageOf?, Layout.image?_of_empty word empty, unplaced]
      rfl
    · exact wf.imageOf?_of_hidden nonempty refused
  rw [none]
  exact ⟨hidden, fun _ => unplaced, rfl⟩

end WellFormed

end Projection

namespace Session

variable {μ : Type} {notify : Notifier μ} {master : Master} {session : Session μ} {edit : Edit}

section
variable (fits : master.length < Offset.bound) (inside : edit.region.Inside master.length)
  (sound : session.SoundIdle master.text .none)

include fits inside sound in
theorem takeShown_exposes (respects : notify.Respects master)
    (must : session.projection.mustShow edit = true) :
    (takeShown notify master edit session).Ends (fun after => after.projection.Exposes edit)
      fun _ => True := by
  have word : edit.region.stop < Offset.bound := Region.stop_lt_of_inside inside fits
  have filled : (fill notify master edit.region (some edit) session).Ends
      (fun after => after.projection.WellFormed master.text ∧
        after.projection.layout.Embraces edit.region) fun _ => True := by
    rcases Nat.eq_zero_or_pos edit.region.length with empty | nonempty
    · have touched : session.projection.isTouchedBy edit = true := by
        simpa [Projection.mustShow, empty] using must
      have admits := sound.wellFormed.admits_of_touched fits inside empty touched
      rw [fill_of_empty empty]
      exact .done ⟨sound.wellFormed, Layout.embraces_of_admits empty admits⟩
    · refine (fill_ends (respects.maintains .none) edit.region (some edit) sound).mono
        (fun after filled => ?_) fun _ _ => trivial
      have wf := filled.1.wellFormed
      exact ⟨wf, wf.layout.embraces_of_shown nonempty (filled.2 word)⟩
  refine filled.andThen fun after filled => ?_
  obtain ⟨wf, embraced⟩ := filled
  obtain ⟨change, image, exposes⟩ := wf.exposes fits inside embraced
  simp only [within, image]
  exact .done exposes

include fits inside sound in
theorem takeOther_exposes_or_conceals (mustNot : session.projection.mustShow edit = false) :
    (takeOther edit session).projection.Exposes edit ∨
      (takeOther edit session).projection.Conceals edit := by
  have seeded := sound.wellFormed.seeded edit
  change ((session.projection.seeded edit).await edit
      ((session.projection.seeded edit).imageOf? edit)).Exposes edit ∨
    ((session.projection.seeded edit).await edit
      ((session.projection.seeded edit).imageOf? edit)).Conceals edit
  rcases Nat.eq_zero_or_pos edit.region.length with empty | nonempty
  · by_cases admits : (session.projection.seeded edit).layout.Admits edit.region.offset
    · obtain ⟨change, image, exposes⟩ :=
        seeded.exposes fits inside (Layout.embraces_of_admits empty admits)
      exact .inl (image ▸ exposes)
    · refine .inr (seeded.conceals fits inside admits fun position covers => ?_)
      unfold Region.Covers Region.stop at covers
      omega
  · have untouched := Projection.untouched_of_mustNot mustNot
    have same : session.projection.seeded edit = session.projection :=
      Projection.seeded_of_some (.inr nonempty)
    obtain ⟨refused, hidden⟩ := sound.wellFormed.hidden_of_not_touched fits inside untouched
    rw [same]
    exact .inr (sound.wellFormed.conceals fits inside refused hidden)

end

variable {audience : Audience μ}

/-- A range change that listeners are being told of at this moment is made first, and an edit that was
announced before is given up. Then the session is sound and idle and takes the edit. -/
theorem exists_prepared (audience : Audience μ) (fits : master.length < Offset.bound)
    (wf : session.projection.WellFormed master.text) (live : session.projection.disposed = false)
    (whole : session.projection.broken = false) (settled : session.projection.outgoing = .none)
    (announced : ∀ planned, session.projection.planned = some planned →
      session.projection.pending = none ∧ session.projection.listeners.dispatching = true ∧
        planned.Current session.projection.layout master.text)
    (word : edit.region.stop < Offset.bound) :
    ∃ middle : Session μ, middle.SoundIdle master.text .none ∧
      middle.projection.options = session.projection.options ∧
      anticipate (publish audience) master edit session = breakOnFault
        (if middle.projection.mustShow edit then takeShown (publish audience) master edit middle
          else .done (takeOther edit middle)) := by
  cases idle : session.projection.planned with
  | none =>
    have sound : (session.update Projection.forget).SoundIdle master.text .none :=
      settled ▸ (wf.congr rfl rfl : session.projection.forget.WellFormed master.text).soundIdle
        live whole rfl idle
    refine ⟨session.update Projection.forget, sound, rfl, ?_⟩
    rw [← anticipate_forget live whole idle, anticipate_of_soundIdle fits word sound live]
  | some planned =>
    obtain ⟨free, dispatching, current⟩ := announced planned idle
    have sound : session.projection.Sound master.text .none := {
      wellFormed := wf
      whole := whole
      free := free
      current := fun other same => Option.some.inj (idle.symm.trans same) ▸ current
      cleared := fun disposed => nomatch live.symm.trans disposed
      forwards := fun _ => settled }
    obtain ⟨layout, carries⟩ := sound.exists_carries idle
    have carried := sound.soundIdle_carried live carries
    have concluded : conclude (publish audience) master session = _ := conclude_of_carries idle carries
    generalize made : ({ session with projection := _ } : Session μ) = changed at concluded
    have busy : (changed.record (.applied planned.change)).Busy (changed.record _).notices :=
      ⟨by rw [← made]; exact dispatching, rfl⟩
    rw [report, (publish_of_busy audience master .after planned.change busy).1, enqueue_eq] at concluded
    generalize told : update _ _ = middle at concluded
    have sound : middle.SoundIdle master.text .none := by
      rw [← told, ← made]
      exact Projection.casual_soundIdle.audience _ _ carried
    have stillLive : middle.projection.disposed = false := by
      rw [← told, ← made]
      exact live
    refine ⟨middle, sound, by rw [← told, ← made]; rfl, ?_⟩
    simp only [anticipate, live, Projection.closed?, whole, Bool.false_eq_true, if_false,
      Outcome.guarded, concluded, Outcome.done_andThen, prepare_of_soundIdle fits word sound stillLive]

/-- Once an announced edit was accepted, it is visible as a whole or not at all, whatever the
listeners did to the ranges and to the settings meanwhile. With automatic expansion, nothing that is
removed stays hidden. -/
theorem anticipate_all_or_nothing (requests : audience.Requests) (fits : master.length < Offset.bound)
    (inside : edit.region.Inside master.length) (wf : session.projection.WellFormed master.text)
    (live : session.projection.disposed = false)
    (settled : session.projection.outgoing = .none)
    (announced : ∀ planned, session.projection.planned = some planned →
      session.projection.pending = none ∧ session.projection.listeners.dispatching = true ∧
        planned.Current session.projection.layout master.text)
    (accepted : (anticipate (publish audience) master edit session).error = none) :
    let after := (anticipate (publish audience) master edit session).state.projection
    (after.Exposes edit ∨ after.Conceals edit) ∧
      (session.projection.options.autoExpand = true → 0 < edit.region.length → after.Exposes edit) := by
  have whole : session.projection.broken = false := by
    by_contra broken
    have closed := Projection.closed?_of_broken live (by simpa using broken)
    simp [anticipate_of_closed closed, live] at accepted
  obtain ⟨middle, sound, options, begun⟩ :=
    exists_prepared audience fits wf live whole settled announced
      (Region.stop_lt_of_inside inside fits)
  rw [begun] at accepted ⊢
  by_cases must : middle.projection.mustShow edit = true
  · rw [if_pos must] at accepted ⊢
    have exposes := takeShown_exposes fits inside sound (publish_respects requests) must
    have exposed := exposes.breakOnFault.good accepted
    exact ⟨.inl exposed, fun _ _ => exposed⟩
  · rw [if_neg must] at accepted ⊢
    refine ⟨takeOther_exposes_or_conceals fits inside sound (by simpa using must),
      fun expands nonempty => ?_⟩
    simp [Projection.mustShow, options, expands, nonempty] at must

def attended : Session Bool where
  projection := {
    layout := Layout.twoApart
    text := ['c', 'd', 'e', 'h', 'i']
    options := { autoExpand := true }
    listeners := { ids := [0], nextId := 1 } }
  memory := false
  allowance := 1

/-- A listener hides a character in front of the edit while the two after it are being filled in. -/
theorem anticipate_all_or_nothing_hiding :
    let master : Master := { text := ['a', 'b', 'c', 'd', 'e', 'f', 'g', 'h', 'i', 'j'] }
    let heard := anticipate (publish (.once (.remove ⟨2, 1⟩))) master ⟨0, ⟨4, 4⟩, ['x']⟩ attended
    heard.error = none ∧ heard.state.projection.layout = ⟨[⟨⟨3, 6, false⟩, ⟨0, 6, false⟩⟩]⟩ ∧
      heard.state.projection.Exposes ⟨0, ⟨4, 4⟩, ['x']⟩ := by
  have accepted : (anticipate (publish (.once (.remove ⟨2, 1⟩)))
      { text := ['a', 'b', 'c', 'd', 'e', 'f', 'g', 'h', 'i', 'j'] } ⟨0, ⟨4, 4⟩, ['x']⟩
      attended).error = none := by decide
  obtain ⟨-, exposes⟩ := anticipate_all_or_nothing (Audience.once_requests (.remove ⟨2, 1⟩)) (by decide)
    (by decide) ⟨Layout.twoApart_wellFormed, by decide⟩ rfl rfl
    (fun _ planned => by cases planned) accepted
  exact ⟨accepted, by decide, exposes rfl (by decide)⟩

end Session

end TextProjection
