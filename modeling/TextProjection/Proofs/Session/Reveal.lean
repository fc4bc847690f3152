import TextProjection.Proofs.Session.Fill
import TextProjection.Proofs.Session.Pending

/-! Edits of the master with listeners that only look on. What they bring is shown or hidden as a
whole, and what is shown of the rest stays the same.
-/

set_option autoImplicit false

namespace TextProjection

namespace Projection

/-- Where the text that an edit brings is shown: it meets a fragment, or it stands right behind the
last one, or it removes something and the projection is to grow with it, or it is the first
insertion of all. -/
inductive Reveals (projection : Projection) (region : Region) : Prop
  | meets {pair : Pair} (member : pair ∈ projection.layout.pairs) (solid : 0 < pair.fragment.length)
      (meets : pair.fragment.Meets region)
  | sole {pair : Pair} (sole : projection.layout.pairs = [pair]) (empty : pair.fragment.length = 0)
      (meets : pair.fragment.Meets region)
  | behind {last : Pair} (found : projection.layout.pairs.getLast? = some last)
      (solid : 0 < last.fragment.length) (stop : last.fragment.stop = region.offset)
  | expand (on : projection.options.autoExpand = true) (removes : 0 < region.length)
  | blank (none : projection.layout.pairs = []) (start : region.offset = 0)
      (inserts : region.length = 0)

variable {projection : Projection} {master : Text} {edit : Edit}

theorem WellFormed.reveals_iff (wf : projection.WellFormed master)
    (fits : master.length < Offset.bound) (inside : edit.region.Inside master.length) :
    projection.Reveals edit.region ↔ projection.mustShow edit = true ∨
      (projection.layout.pairs = [] ∧ edit.region.offset = 0 ∧ edit.region.length = 0) := by
  have touched := wf.isTouchedBy_iff fits (Region.stop_lt_of_inside inside fits)
  rw [mustShow, Bool.or_eq_true, touched, Bool.and_eq_true, decide_eq_true_eq]
  constructor
  · intro reveals
    cases reveals with
    | meets member solid meets => exact .inl (.inl (.inl ⟨_, member, meets⟩))
    | sole sole empty meets => exact .inl (.inl (.inl ⟨_, by simp [sole], meets⟩))
    | behind found solid stop => exact .inl (.inl (.inr ⟨_, found, solid, stop⟩))
    | expand on removes => exact .inl (.inr ⟨on, removes⟩)
    | blank none start inserts => exact .inr ⟨none, start, inserts⟩
  · rintro (((⟨pair, member, meets⟩ | ⟨last, found, solid, stop⟩) | ⟨on, removes⟩) |
      ⟨none, start, inserts⟩)
    · rcases Nat.eq_zero_or_pos pair.fragment.length with empty | solid
      · -- Only a fragment without neighbours may be empty.
        have few : projection.layout.pairs.length < 2 := by
          by_contra many
          exact absurd (wf.layout.solid (Nat.le_of_not_lt many) pair member) (by omega)
        obtain ⟨front, back, split⟩ := List.append_of_mem member
        have lengths : front.length = 0 ∧ back.length = 0 := by
          rw [split, List.length_append, List.length_cons] at few
          omega
        rw [List.eq_nil_of_length_eq_zero lengths.1, List.eq_nil_of_length_eq_zero lengths.2] at split
        exact .sole split empty meets
      · exact .meets member solid meets
    · exact .behind found solid stop
    · exact .expand on removes
    · exact .blank none start inserts

theorem reveals_forget {region : Region} :
    projection.forget.Reveals region ↔ projection.Reveals region := by
  constructor <;> intro reveals
  all_goals
    cases reveals with
    | meets member solid meets => exact .meets member solid meets
    | sole sole empty meets => exact .sole sole empty meets
    | behind found solid stop => exact .behind found solid stop
    | expand on removes => exact .expand on removes
    | blank none start inserts => exact .blank none start inserts

end Projection

namespace Session

variable {μ : Type} {notify : Notifier μ} {master : Master} {outgoing : Outgoing}
  {session : Session μ} {edit : Edit}

section
variable (informs : notify.Informs) (drained : session.projection.listeners.Drained)

include informs drained in
theorem takeShown_informs (fits : master.length < Offset.bound)
    (inside : edit.region.Inside master.length) (sound : session.SoundIdle master.text outgoing)
    (live : session.projection.disposed = false) (usual : session.projection.options.bound = {})
    (must : session.projection.mustShow edit = true) :
    ∃ after, takeShown notify master edit session = .done after ∧
      after.projection.Awaits master.text outgoing edit ∧ Enlarges edit.region session after ∧
      after.projection.layout.Admits edit.region.offset := by
  obtain ⟨middle, filled, sound', live', enlarges, shown⟩ :=
    fill_informs informs drained fits inside sound live usual (some edit)
  have touched (empty : edit.region.length = 0) : middle.projection.isTouchedBy edit = true := by
    -- There is nothing to fill, so the projection is the one that is touched.
    rw [fill_of_empty empty] at filled
    obtain rfl : session = middle := congrArg Outcome.state filled
    simpa [Projection.mustShow, empty] using must
  obtain ⟨change, image, awaits⟩ := sound'.awaits_of_shown live' fits inside shown touched
  obtain ⟨_, pending, foreseen⟩ := awaits.announced
  obtain rfl : some change = _ := congrArg Pending.change (Option.some.inj pending)
  refine ⟨middle.update fun projection => projection.await edit (some change), ?_, awaits,
    ⟨enlarges.listeners, enlarges.outside, enlarges.contents⟩, foreseen.1⟩
  simp only [takeShown, filled, Outcome.done_andThen, within, image]
  rfl

theorem takeOther_admits (fits : master.length < Offset.bound)
    (inside : edit.region.Inside master.length) (sound : session.SoundIdle master.text outgoing)
    (mustNot : session.projection.mustShow edit = false) :
    Enlarges edit.region session (takeOther edit session) ∧
      ((takeOther edit session).projection.layout.Admits edit.region.offset ↔
        session.projection.layout.pairs = [] ∧ edit.region.length = 0 ∧
          edit.region.offset = 0) := by
  have kept := Projection.seeded_eq session.projection edit
  have untouched := Projection.untouched_of_mustNot mustNot
  have hidden := sound.wellFormed.hidden_of_not_touched fits inside untouched
  constructor
  · exact ⟨congrArg (·.listeners) kept,
      fun position _ => Projection.WellFormed.shows_seeded edit position, rfl⟩
  · exact (Projection.WellFormed.admits_seeded edit edit.region.offset).trans
      (or_iff_right hidden.1)

include informs drained in
/-- A session that hears of an edit is ready for it, and shows nothing new outside of it. -/
theorem anticipate_informs (fits : master.length < Offset.bound)
    (inside : edit.region.Inside master.length) (sound : session.SoundIdle master.text .none)
    (live : session.projection.disposed = false) (usual : session.projection.options.bound = {}) :
    ∃ after, anticipate notify master edit session = .done after ∧
      after.projection.Awaits master.text .none edit ∧ Enlarges edit.region session after ∧
      (after.projection.layout.Admits edit.region.offset ↔
        session.projection.Reveals edit.region) := by
  rw [sound.wellFormed.reveals_iff fits inside,
    anticipate_of_soundIdle fits (Region.stop_lt_of_inside inside fits) sound live]
  by_cases must : session.projection.mustShow edit = true
  · obtain ⟨after, taken, awaits, enlarges, admits⟩ :=
      takeShown_informs informs drained fits inside sound live usual must
    refine ⟨after, ?_, awaits, enlarges, by simp [admits, must]⟩
    rw [if_pos must, taken]
    rfl
  · have mustNot : session.projection.mustShow edit = false := by simpa using must
    -- Without fragments, an insertion at the start is seeded.
    obtain ⟨enlarges, admits⟩ := takeOther_admits fits inside sound mustNot
    refine ⟨takeOther edit session, ?_, takeOther_awaits fits inside sound live mustNot, enlarges, ?_⟩
    · rw [if_neg must]
      rfl
    · rw [admits, or_iff_right must]
      exact and_congr_right fun _ => and_comm

include informs drained in
/-- An edit that was announced is followed, and each listener is told of a change of the text
before and after. -/
theorem confirm_informs {text : Text} {change : Option Change}
    (fits : master.length < Offset.bound)
    (inside : edit.region.Inside text.length) (result : master.text = edit.result text)
    (awaits : session.projection.Awaits text outgoing edit)
    (pending : session.projection.pending = some ⟨edit, change⟩)
    (foreseen : session.projection.layout.Foresees edit change) :
    (confirm notify master edit session).Ends
      (fun after =>
        after.projection = (session.projection.forget.follow edit).readFrom master.text ∧
          after.notices = session.notices ++ change.elim [] session.tidings)
      fun _ => False := by
  have fitsAfter : (edit.result text).length < Offset.bound := result ▸ fits
  rw [confirm_of_awaits awaits]
  apply Outcome.Ends.breakOnFault
  apply followAnnounced_spec (fun told => told.projection = session.projection ∧
    told.notices = session.notices ++ change.elim [] fun change =>
      session.projection.listeners.ids.map (·, ⟨.before, change⟩)) awaits.live pending
  · cases change with
    | none => exact ⟨rfl, (List.append_nil _).symm⟩
    | some change => exact informs master .before change session drained
  · rintro told ⟨same, -⟩ disposed
    rw [same] at disposed
    cases awaits.live.symm.trans disposed
  · rintro told ⟨same, notices⟩ -
    have forgotten : session.projection.forget.WellFormed text := awaits.wellFormed.congr rfl rfl
    have patched := forgotten.patch_follow inside foreseen
    rw [same]
    refine ⟨_, patched, ?_⟩
    rw [← result]
    cases change with
    | none => exact ⟨rfl, notices⟩
    | some change =>
      obtain ⟨projection, told'⟩ := informs master .after change
        (Session.record { told.noteDrift edit with
          projection := (session.projection.forget.follow edit).readFrom master.text }
          (.applied change)) drained
      refine ⟨projection, ?_⟩
      rw [notices_record_applied] at told'
      refine told'.trans ?_
      change told.notices ++ _ = _
      rw [notices, List.append_assoc]
      rfl

end

/-- An edit of the master was followed: all of its text is shown or none of it, the rest is shown
as before, and the listeners were told of a change of the content if the text is shown. -/
structure Followed (before after : Session μ) (region : Region) (text : Text) : Prop where
  outside : before.projection.layout.SameOutside after.projection.layout region text
  inserted : ∀ i < text.length, after.projection.layout.Shows (region.offset + i) ↔
    before.projection.Reveals region
  told : before.projection.Reveals region → ∃ change, change.kind = .content ∧
    after.contents = before.contents ++ before.tidings change
  untold : ¬ before.projection.Reveals region → after.contents = before.contents

theorem Followed.of_forget {before after : Session μ} {region : Region} {text : Text}
    (followed : (before.update Projection.forget).Followed after region text) :
    before.Followed after region text where
  outside := followed.outside
  inserted i below := (followed.inserted i below).trans Projection.reveals_forget
  told reveals := followed.told (Projection.reveals_forget.mpr reveals)
  untold hides := followed.untold fun reveals => hides (Projection.reveals_forget.mp reveals)

theorem followed_of_enlarges {before middle after : Session μ} {change : Option Change}
    (enlarges : Enlarges edit.region before middle)
    (admits : middle.projection.layout.Admits edit.region.offset ↔
      before.projection.Reveals edit.region)
    (foreseen : middle.projection.layout.Foresees edit change)
    (shows : ∀ position, after.projection.layout.Shows position ↔
      middle.projection.layout.ShowsAfter edit position)
    (notices : after.notices = middle.notices ++ change.elim [] middle.tidings) :
    before.Followed after edit.region edit.text := by
  have same := Layout.sameOutside_of_showsAfter shows
  have contents : after.contents = before.contents ++
      (change.elim [] middle.tidings).filter fun notice => notice.2.change.kind = .content := by
    rw [Session.contents, notices, List.filter_append]
    exact congrArg (· ++ _) enlarges.contents
  refine ⟨⟨fun position below => ?_, fun i => ?_⟩, fun i below => ?_, fun reveals => ?_,
    fun hides => ?_⟩
  · exact (same.below position below).trans
      (enlarges.outside position fun covers => Nat.not_le.mpr below covers.1)
  · refine (same.above i).trans (enlarges.outside _ fun covers => ?_)
    exact Nat.not_le.mpr covers.2 (Nat.le_add_right _ _)
  · exact (Layout.shows_inserted shows below).trans admits
  -- There is a change exactly if the text that is inserted will be shown.
  · cases change with
    | none => exact absurd (admits.mpr reveals) foreseen.1
    | some change =>
      obtain ⟨-, -, -, kind, -⟩ := foreseen
      refine ⟨change, kind, contents.trans ?_⟩
      rw [Option.elim_some, filter_tidings, if_pos kind, tidings, tidings, enlarges.listeners]
  · cases change with
    | none => exact contents.trans (List.append_nil _)
    | some change => exact absurd (admits.mp foreseen.1) hides

/-- Where nothing was announced before, an edit of the master is announced, confirmed and followed. -/
theorem editMaster_informs (informs : notify.Informs) (sound : session.SoundIdle master.text .none)
    (drained : session.projection.listeners.Drained) (live : session.projection.disposed = false)
    (usual : session.projection.options.bound = {}) {region : Region} {text : Text}
    (inside : region.Inside master.length) (fits : master.length < Offset.bound)
    (fitsAfter : (master.text.splice region text).length < Offset.bound) :
    (editMaster notify master region text session).error = none ∧
      (editMaster notify master region text session).state.1.text =
        master.text.splice region text ∧
      (editMaster notify master region text session).state.2.projection.WellFormed
        (master.text.splice region text) ∧
      session.Followed (editMaster notify master region text session).state.2 region text := by
  have insideEdit : (Edit.mk master.nextEdit region text).region.Inside master.text.length := inside
  have fitsBumped : Master.length { master with nextEdit := master.nextEdit + 1 } < Offset.bound :=
    fits
  have fitsResult : Master.length
      ⟨master.text.splice region text, master.version + 1, master.nextEdit + 1⟩ < Offset.bound :=
    fitsAfter
  obtain ⟨middle, anticipated, awaits, enlarges, admits⟩ :=
    anticipate_informs informs drained fitsBumped insideEdit sound live usual
  obtain ⟨change, pending, foreseen⟩ := awaits.announced
  have drained' : middle.projection.listeners.Drained := enlarges.listeners ▸ drained
  have forgotten : middle.projection.forget.WellFormed master.text := awaits.wellFormed.congr rfl rfl
  obtain ⟨followed, shows⟩ := forgotten.follow insideEdit
  obtain ⟨success, projection, notices⟩ := (confirm_informs informs drained' fitsResult insideEdit
    rfl awaits pending foreseen).success
  rw [editMaster_of_anticipated inside anticipated]
  refine ⟨success, rfl, ?_, ?_⟩
  · exact followed.congr (congrArg (·.layout) projection) (congrArg (·.text) projection)
  · refine followed_of_enlarges enlarges admits foreseen (fun position => ?_) notices
    refine (iff_of_eq ?_).trans (shows position)
    exact congrArg (·.layout.Shows position) projection

/-- An edit of the master succeeds under the usual bound and is followed, also while one that was
announced is still pending. -/
theorem editMaster_followed {audience : Audience μ} (passive : audience.Passive)
    (drained : session.projection.listeners.Drained) (wf : session.projection.WellFormed master.text)
    (live : session.projection.disposed = false) (whole : session.projection.broken = false)
    (idle : session.projection.planned = none) (still : session.projection.outgoing = .none)
    (usual : session.projection.options.bound = {}) {region : Region} {text : Text}
    (inside : region.Inside master.length) (fits : master.length < Offset.bound)
    (fitsAfter : (master.text.splice region text).length < Offset.bound) :
    (editMaster (publish audience) master region text session).error = none ∧
      (editMaster (publish audience) master region text session).state.1.text =
        master.text.splice region text ∧
      (editMaster (publish audience) master region text session).state.2.projection.WellFormed
        (master.text.splice region text) ∧
      session.Followed (editMaster (publish audience) master region text session).state.2 region
        text := by
  have forgotten : (session.update Projection.forget).projection.WellFormed master.text :=
    wf.congr rfl rfl
  have sound : (session.update Projection.forget).SoundIdle master.text .none :=
    still ▸ forgotten.soundIdle live whole rfl idle
  obtain ⟨success, edited, after, followed⟩ :=
    editMaster_informs (publish_informs passive) sound drained live usual inside fits fitsAfter
  rw [editMaster_forget live whole idle inside] at success edited after followed
  exact ⟨success, edited, after, followed.of_forget⟩

/-- The edit removes the hidden character and one on each side of it. -/
theorem editMaster_followed_across :
    let edited := editMaster (publish .counting) { text := ['a', 'b', 'c', 'd', 'e'] } ⟨1, 3⟩ ['x']
      twoEnds
    edited.error = none ∧ edited.state.1.text = ['a', 'x', 'e'] ∧
      edited.state.2.projection.WellFormed ['a', 'x', 'e'] ∧
      twoEnds.Followed edited.state.2 ⟨1, 3⟩ ['x'] := by
  have inside : Region.Inside ⟨1, 3⟩ (Master.length { text := ['a', 'b', 'c', 'd', 'e'] }) := by
    decide
  have fitsAfter : (Text.splice ['a', 'b', 'c', 'd', 'e'] ⟨1, 3⟩ ['x']).length < Offset.bound := by
    decide
  exact editMaster_followed Audience.counting_passive ⟨rfl, rfl⟩ twoEnds_wellFormed rfl rfl rfl
    rfl rfl inside (by decide) fitsAfter

end Session

end TextProjection
