import TextProjection.Proofs.Projection.Compose
import TextProjection.Proofs.Session.Agree
import TextProjection.Proofs.Session.Coupling

/-! Edits of the master compose where listeners only look on. With nothing under way, an edit succeeds
and leaves nothing under way, and the layout that it leaves is determined, so one edit can stand for
several.
-/

set_option autoImplicit false

namespace TextProjection

namespace Session

variable {μ : Type} {notify : Notifier μ} {master : Master} {session middle : Session μ}
  {region : Region} {text : Text} {edit : Edit}

theorem coupling_options (informs : notify.Informs) (options : Options) :
    Coupling notify notify fun left right => left = right ∧
      left.projection.listeners.Drained ∧ left.projection.options = options :=
  .of_same
    (fun _ _ holds continues => ⟨continues.listeners ▸ holds.1, continues.options.trans holds.2⟩)
    (fun _ _ holds => holds)
    (fun _ _ holds => holds)
    (fun master phase change session holds => by
      obtain ⟨same, -⟩ := informs master phase change session holds.1
      exact ⟨rfl, by rwa [same]⟩)

theorem anticipate_options (informs : notify.Informs) (drained : session.projection.listeners.Drained)
    (anticipated : anticipate notify master edit session = .done middle) :
    middle.projection.options = session.projection.options := by
  have kept := (anticipate_both (coupling_options informs session.projection.options) master edit
    ⟨rfl, drained, rfl⟩).state
  rw [anticipated] at kept
  exact kept.2.2

theorem anticipate_of_hidden (anticipated : anticipate notify master edit session = .done middle)
    (sound : session.SoundIdle master.text .none) (live : session.projection.disposed = false)
    (fits : master.length < Offset.bound) (inside : edit.region.Inside master.length)
    (hides : ¬ session.projection.Reveals edit.region) :
    middle.projection.layout = (session.projection.seeded edit).layout := by
  have mustNot : ¬ session.projection.mustShow edit = true := fun must =>
    hides ((sound.wellFormed.reveals_iff fits inside).mpr (.inl must))
  rw [anticipate_of_soundIdle fits (Region.stop_lt_of_inside inside fits) sound live,
    if_neg mustNot] at anticipated
  obtain rfl : takeOther edit session = middle := congrArg Outcome.state anticipated
  rfl

/-- Nothing is shown after an edit that passed by: then the layout stays as it is, or an insertion
brings an empty fragment. -/
theorem follow_passed {projection : Projection} {master : Text} (wf : projection.WellFormed master)
    (hides : ¬ projection.Reveals edit.region)
    (silent : projection.layout.Silent) :
    ((projection.seeded edit).follow edit).layout =
      projection.layout.passedBy edit.region edit.text := by
  rcases wf.layout.blank_or_vacant silent with none | ⟨place, same⟩
  · rw [Layout.passedBy_of_blank none]
    have hidden := mt (Projection.reveals_of_blank none).mpr hides
    rcases Projection.seeded_cases projection edit with ⟨-, empty, seeded⟩ | ⟨some, seeded⟩
    · -- The insertion is past the empty fragment that is put in for it.
      have away : ¬ edit.region.Touches 0 := by
        unfold Region.Touches
        omega
      rw [if_pos empty, seeded]
      exact (Layout.WellFormed.follow_vacant away).trans rfl
    · rw [if_neg (some.resolve_left (not_not_intro none)), seeded]
      have blank : projection.layout = {} := congrArg Layout.mk none
      simp only [Projection.follow, blank]
      rfl
  · have away := mt (Projection.reveals_of_vacant same).mpr hides
    have some : projection.layout.pairs ≠ [] := by simp [same, Layout.vacant]
    have bound : place ≤ master.length := by
      have inside := wf.layout.inside ⟨⟨place, 0, false⟩, ⟨0, 0, false⟩⟩ (by simp [same, Layout.vacant])
      exact inside
    rw [Projection.seeded_of_some (.inl some)]
    simp only [Projection.follow, same]
    exact Layout.WellFormed.follow_vacant fun touches =>
      away (.inl touches)

theorem edited_of_anticipated (anticipated : anticipate notify master edit session = .done middle)
    (sound : session.SoundIdle master.text .none) (live : session.projection.disposed = false)
    (fits : master.length < Offset.bound) (inside : edit.region.Inside master.length)
    (awaits : middle.projection.Awaits master.text .none edit)
    (enlarges : Enlarges edit.region session middle)
    (admits : middle.projection.layout.Admits edit.region.offset ↔
      session.projection.Reveals edit.region) {after : Projection}
    (options : after.options = session.projection.options)
    (layout : after.layout = (middle.projection.follow edit).layout) :
    session.projection.Edited after edit.region edit.text := by
  have forgotten : middle.projection.forget.WellFormed master.text := awaits.wellFormed.congr rfl rfl
  obtain ⟨-, shows⟩ := forgotten.layout.follow inside
  have same := Layout.sameOutside_of_showsAfter shows
  have outside : session.projection.layout.SameOutside after.layout edit.region edit.text := by
    rw [layout]
    refine ⟨fun position below => ?_, fun i => ?_⟩
    · exact (same.below position below).trans
        (enlarges.outside position fun covers => Nat.not_le.mpr below covers.1)
    · exact (same.above i).trans
        (enlarges.outside _ fun covers => Nat.not_le.mpr covers.2 (Nat.le_add_right _ _))
  refine ⟨options, outside, fun i below => ?_, fun silent reveals => ?_, fun silent hides => ?_⟩
  · rw [layout]
    exact (Layout.shows_inserted shows below).trans admits
  · rw [layout] at silent ⊢
    exact awaits.wellFormed.layout.follow_emptied inside (admits.mpr reveals) silent
  · have before := Projection.silent_of_outside sound.wellFormed.layout outside silent hides
    have taken := anticipate_of_hidden anticipated sound live fits inside hides
    rw [layout, ← follow_passed sound.wellFormed hides before]
    simp only [Projection.follow, taken]

section

variable (informs : notify.Informs) (fits : master.length < Offset.bound)

include informs fits

/-- Under the usual bound and with nothing under way an edit of the master succeeds and leaves it so,
and what it makes of the projection is determined. -/
theorem UsualIdle.exists_editMaster (usualIdle : session.UsualIdle master.text)
    (inside : region.Inside master.length)
    (fitsAfter : (master.text.splice region text).length < Offset.bound) :
    ∃ after, editMaster notify master region text session =
        .done (⟨master.text.splice region text, master.version + 1, master.nextEdit + 1⟩, after) ∧
      after.UsualIdle (master.text.splice region text) ∧
      session.projection.Edited after.projection region text := by
  obtain ⟨⟨live, drained, usual⟩, sound⟩ := usualIdle
  have insideEdit : (Edit.mk master.nextEdit region text).region.Inside master.text.length := inside
  have fitsBumped : Master.length { master with nextEdit := master.nextEdit + 1 } < Offset.bound :=
    fits
  have fitsResult : Master.length
      ⟨master.text.splice region text, master.version + 1, master.nextEdit + 1⟩ < Offset.bound :=
    fitsAfter
  obtain ⟨middle, anticipated, awaits, enlarges, admits⟩ :=
    anticipate_informs informs drained fitsBumped insideEdit sound live usual
  obtain ⟨change, pending, foreseen⟩ := awaits.announced
  have options := anticipate_options informs drained anticipated
  have drained' : middle.projection.listeners.Drained := enlarges.listeners ▸ drained
  obtain ⟨success, projected, -⟩ := (confirm_informs informs drained' fitsResult insideEdit
    rfl awaits pending foreseen).success
  have edited := editMaster_of_anticipated inside anticipated
  generalize confirm notify _ _ middle = confirmed at success projected edited
  obtain ⟨after, error⟩ := confirmed
  obtain rfl : error = none := success
  have soundIdle := Projection.soundIdle_follow awaits.wellFormed awaits.whole awaits.live awaits.idle
    awaits.forwards insideEdit
  have layout : after.projection.layout =
      (middle.projection.follow ⟨master.nextEdit, region, text⟩).layout := congrArg (·.layout) projected
  have usualIdle' : after.UsualIdle (master.text.splice region text) := by
    refine ⟨⟨?_, ?_, ?_⟩, ?_⟩
    · exact (congrArg (·.disposed) projected).trans awaits.live
    · exact (congrArg (·.listeners) projected) ▸ drained'
    · exact (congrArg (·.options.bound) projected).trans ((congrArg Options.bound options).trans usual)
    · unfold SoundIdle
      rw [show after.projection = _ from projected]
      exact soundIdle
  refine ⟨after, edited, usualIdle', ?_⟩
  exact edited_of_anticipated anticipated sound live fitsBumped insideEdit awaits enlarges
    admits ((congrArg (·.options) projected).trans options) layout

end

/-! Several edits -/

def edits (notify : Notifier μ) :
    List (Region × Text) → Master × Session μ → Outcome (Master × Session μ)
  | [], edited => .done edited
  | (region, text) :: rest, (master, session) =>
    (editMaster notify master region text session).andThen (edits notify rest)

/-- Both succeed, with the same master text, the same fragments and segments and the same projection
text in the end. -/
structure Coincide (one other : Outcome (Master × Session μ)) : Prop where
  done : one.error = none
  done' : other.error = none
  master : one.state.1.text = other.state.1.text
  layout : one.state.2.projection.layout = other.state.2.projection.layout
  text : one.state.2.projection.text = other.state.2.projection.text

theorem edits_cons {master' : Master} {rest : List (Region × Text)}
    (edited : editMaster notify master region text session = .done (master', middle)) :
    edits notify ((region, text) :: rest) (master, session) = edits notify rest (master', middle) := by
  rw [edits, edited, Outcome.done_andThen]

theorem coincide_of_edited {master' master'' : Master} {left right : Session μ}
    (same : master'.text = master''.text) (usualIdle : left.UsualIdle master'.text)
    (usualIdle' : right.UsualIdle master''.text)
    (one : session.projection.Edited left.projection region text)
    (other : session.projection.Edited right.projection region text) :
    Coincide (.done (master', left)) (.done (master'', right)) := by
  have layout : left.projection.layout = right.projection.layout :=
    one.unique other usualIdle.sound.wellFormed.layout (same ▸ usualIdle'.sound.wellFormed.layout)
  refine ⟨rfl, rfl, same, layout, ?_⟩
  exact usualIdle.sound.wellFormed.text_eq.trans
    ((congrArg₂ Layout.textUnder layout same).trans usualIdle'.sound.wellFormed.text_eq.symm)

section

variable (informs : notify.Informs) {offset : Nat}

include informs

theorem UsualIdle.exists_removals (fits : master.length < Offset.bound)
    (usualIdle : session.UsualIdle master.text) {count : Nat} (some : 0 < count)
    (inside : offset + count ≤ master.length) :
    ∃ master' after,
      edits notify (List.replicate count (⟨offset, 1⟩, [])) (master, session) =
        .done (master', after) ∧ master'.text = master.text.splice ⟨offset, count⟩ [] ∧
      after.UsualIdle master'.text ∧
      session.projection.Edited after.projection ⟨offset, count⟩ [] := by
  induction count generalizing master session with
  | zero => exact absurd some (Nat.lt_irrefl 0)
  | succ count ih =>
    have insideFirst : Region.Inside ⟨offset, 1⟩ master.length := Region.inside_iff.mpr (by
      simp only
      omega)
    have shorter : (master.text.splice ⟨offset, 1⟩ []).length = master.length - 1 :=
      Text.length_splice insideFirst []
    have fitsBetween : Master.length
        ⟨master.text.splice ⟨offset, 1⟩ [], master.version + 1, master.nextEdit + 1⟩ <
          Offset.bound := by
      rw [Master.length, shorter]
      omega
    obtain ⟨middle, edited, usualIdle', one⟩ :=
      usualIdle.exists_editMaster informs fits insideFirst fitsBetween
    rw [List.replicate_succ, edits_cons edited]
    rcases Nat.eq_zero_or_pos count with rfl | more
    · exact ⟨_, middle, rfl, rfl, usualIdle', one⟩
    · have insideRest : offset + count ≤ Master.length
          ⟨master.text.splice ⟨offset, 1⟩ [], master.version + 1, master.nextEdit + 1⟩ := by
        rw [Master.length, shorter]
        omega
      obtain ⟨master', after, removed, text, usualIdleAfter, two⟩ :=
        ih fitsBetween usualIdle' more insideRest
      have start : offset ≤ master.text.length := Nat.le_trans (Nat.le_add_right _ _) inside
      refine ⟨master', after, removed, text.trans (Text.splice_remove _ start count), usualIdleAfter, ?_⟩
      exact one.remove_trans more two usualIdle.sound.wellFormed.layout usualIdle'.sound.wellFormed.layout

end

/-- Edits compose. Inserting a text is inserting its first part and then the rest behind it; removing
characters is removing the first of them again and again. -/
theorem editMaster_composes {audience : Audience μ} (passive : audience.Passive)
    (usualIdle : session.UsualIdle master.text) (fits : master.length < Offset.bound) {offset : Nat}
    (inside : offset ≤ master.length) :
    (∀ first second : Text, master.length + (first ++ second).length < Offset.bound →
      Coincide (editMaster (publish audience) master ⟨offset, 0⟩ (first ++ second) session)
        (edits (publish audience)
          [(⟨offset, 0⟩, first), (⟨offset + first.length, 0⟩, second)] (master, session))) ∧
    ∀ count, 0 < count → offset + count ≤ master.length →
      Coincide (editMaster (publish audience) master ⟨offset, count⟩ [] session)
        (edits (publish audience) (List.replicate count (⟨offset, 1⟩, [])) (master, session)) := by
  have informs := publish_informs passive
  constructor
  · intro first second room
    have insideWhole : Region.Inside ⟨offset, 0⟩ master.length := Region.inside_iff.mpr inside
    have longer (text : Text) : (master.text.splice ⟨offset, 0⟩ text).length =
        master.length + text.length := Text.length_splice insideWhole text
    have both : (first ++ second).length = first.length + second.length := List.length_append
    have joined := Text.splice_insert master.text inside first second
    have fitsBetween : Master.length
        ⟨master.text.splice ⟨offset, 0⟩ first, master.version + 1, master.nextEdit + 1⟩ <
          Offset.bound := by
      rw [Master.length, longer]
      omega
    have fitsAfter : (master.text.splice ⟨offset, 0⟩ (first ++ second)).length < Offset.bound := by
      rwa [longer]
    have insideRest : Region.Inside ⟨offset + first.length, 0⟩
        (master.text.splice ⟨offset, 0⟩ first).length := Region.inside_iff.mpr (by
      rw [longer]
      exact Nat.add_le_add_right inside _)
    obtain ⟨whole, edited, usualIdleWhole, shown⟩ :=
      usualIdle.exists_editMaster informs fits insideWhole fitsAfter
    obtain ⟨middle, edited', usualIdle', one⟩ :=
      usualIdle.exists_editMaster informs fits insideWhole fitsBetween
    obtain ⟨after, edited'', usualIdleAfter, two⟩ := usualIdle'.exists_editMaster informs
      fitsBetween insideRest (by rwa [joined])
    rw [edited, edits_cons edited', edits_cons edited'']
    exact coincide_of_edited joined.symm usualIdleWhole usualIdleAfter shown
      (one.insert_trans two usualIdle.sound.wellFormed.layout usualIdle'.sound.wellFormed.layout)
  · intro count some room
    have insideAll : Region.Inside ⟨offset, count⟩ master.length := Region.inside_iff.mpr room
    have shorter : (master.text.splice ⟨offset, count⟩ []).length = master.length - count :=
      Text.length_splice insideAll []
    have fitsAfter : (master.text.splice ⟨offset, count⟩ []).length < Offset.bound := by omega
    obtain ⟨whole, edited, usualIdleWhole, shown⟩ :=
      usualIdle.exists_editMaster informs fits insideAll fitsAfter
    obtain ⟨master', after, removed, text, usualIdleAfter, removals⟩ :=
      usualIdle.exists_removals informs fits some room
    rw [edited, removed]
    exact coincide_of_edited text.symm usualIdleWhole usualIdleAfter shown removals

/-- A text goes into the hidden middle right behind the first fragment, and the characters around it are
removed. -/
theorem editMaster_composes_across :
    let master : Master := { text := ['a', 'b', 'c', 'd', 'e'] }
    Coincide (editMaster (publish .counting) master ⟨2, 0⟩ ['x', 'y'] twoEnds)
        (edits (publish .counting) [(⟨2, 0⟩, ['x']), (⟨3, 0⟩, ['y'])] (master, twoEnds)) ∧
      Coincide (editMaster (publish .counting) master ⟨1, 3⟩ [] twoEnds)
        (edits (publish .counting) [(⟨1, 1⟩, []), (⟨1, 1⟩, []), (⟨1, 1⟩, [])] (master, twoEnds)) := by
  have fits : Master.length { text := ['a', 'b', 'c', 'd', 'e'] } < Offset.bound := by decide
  have inserts := (editMaster_composes Audience.counting_passive twoEnds_usualIdle fits
    (show 2 ≤ 5 by decide)).1 ['x'] ['y'] (by decide)
  have removes := (editMaster_composes Audience.counting_passive twoEnds_usualIdle fits
    (show 1 ≤ 5 by decide)).2 3 (by decide) (by decide)
  exact ⟨inserts, removes⟩

end Session

end TextProjection
