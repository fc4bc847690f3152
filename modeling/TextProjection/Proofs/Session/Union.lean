import TextProjection.Proofs.Layout.Unique
import TextProjection.Proofs.Session.Usual

/-! Adding ranges is union. The fragments are the maximal runs of all that was added, whatever the
order of the additions and however often something was added.
-/

set_option autoImplicit false

namespace TextProjection

variable {μ ν : Type}

/-- A region was added to what is shown, and the fragments are the maximal runs of that. -/
structure Projection.Unites (before after : Projection) (master : Text) (region : Region) : Prop where
  wellFormed : after.WellFormed master
  shows : ∀ position, after.layout.Shows position ↔
    before.layout.Shows position ∨ region.Covers position
  runs : ∀ position, after.layout.Shows position →
    Runs after.layout.Shows 0 master.length after.layout.fragments

def Region.Cover (regions : List Region) (position : Nat) : Prop :=
  ∃ region ∈ regions, region.Covers position

theorem Projection.WellFormed.answers {projection : Projection} {master : Master} {region : Region}
    (wf : projection.WellFormed master.text) (opened : projection.closed? = none)
    (fits : master.length < Offset.bound) (inside : region.Inside master.length)
    (nonempty : 0 < region.length)
    (shown : ∀ position, region.Covers position → projection.layout.Shows position) :
    projection.shown master region = .ok (some [region]) ∧
      projection.hidden master region = .ok [] := by
  have word : region.stop < Offset.bound := Region.stop_lt_of_inside inside fits
  have allowed : projection.closed?.or (master.outside? region) = none := by
    rw [opened, Master.outside?_of_inside inside, Option.or_none]
  have hidden : projection.layout.hidden region = [] := wf.layout.hidden_of_shown shown
  constructor
  · simp only [Projection.shown, allowed, wf.layout.origins?_of_shown nonempty word shown]
  · simp only [Projection.hidden, allowed, hidden]

namespace Session

variable {notify : Notifier μ} {master : Master} {session : Session μ} {region : Region}

section
variable (informs : notify.Informs) (spares : notify.Spares master)
  (fits : master.length < Offset.bound)

include informs spares fits

/-- Under the usual bound and with nothing under way any region can be added, and it is shown then,
too. -/
theorem UsualIdle.exists_add (usualIdle : session.UsualIdle master.text)
    (inside : region.Inside master.length) :
    ∃ after, add notify master region session = .done after ∧ after.UsualIdle master.text ∧
      ∀ position, after.projection.layout.Shows position ↔
        session.projection.layout.Shows position ∨ region.Covers position := by
  obtain ⟨after, filled, -, -, enlarges, shown⟩ :=
    fill_informs informs usualIdle.drained fits inside usualIdle.sound usualIdle.live usualIdle.usual none
  have added : add notify master region session = .done after := by
    rw [add, usualIdle.changeRanges_eq inside, filled]
    rfl
  have usualIdle' : (add notify master region session).state.UsualIdle master.text :=
    usualIdle.request informs spares (show Request.Ranges (.add region) from trivial)
  rw [added] at usualIdle'
  refine ⟨after, added, usualIdle', fun position => ?_⟩
  by_cases covered : region.Covers position
  · exact iff_of_true (shown position covered) (.inr covered)
  · exact (enlarges.outside position covered).trans (or_iff_left covered).symm

/-- Regions that are added one after the other are shown in the end, together with what was shown. -/
theorem UsualIdle.exists_adds (usualIdle : session.UsualIdle master.text) {regions : List Region}
    (inside : ∀ region ∈ regions, region.Inside master.length) :
    ∃ after, session.requests notify master (regions.map .add) =
        (after, regions.map fun _ => .ok .done) ∧ after.UsualIdle master.text ∧
      ∀ position, after.projection.layout.Shows position ↔
        session.projection.layout.Shows position ∨ Region.Cover regions position := by
  induction regions generalizing session with
  | nil => exact ⟨session, rfl, usualIdle, fun position => by simp [Region.Cover]⟩
  | cons region rest ih =>
    obtain ⟨here, others⟩ := List.forall_mem_cons.mp inside
    obtain ⟨middle, added, usualIdle', shows⟩ := usualIdle.exists_add informs spares fits here
    obtain ⟨after, requested, usualIdleAfter, shows'⟩ := ih usualIdle' others
    refine ⟨after, ?_, usualIdleAfter, fun position => ?_⟩
    · have first : session.request notify master (.add region) = (middle, .ok .done) := by
        rw [Session.request, added]
        rfl
      simp only [List.map_cons, requests, first, requested]
    · rw [shows', shows, or_assoc]
      exact or_congr_right (by simp [Region.Cover])

end

/-- Adding ranges is union. An addition succeeds and leaves the maximal runs of what is shown then. So
sessions to which the same was added, in whatever parts and order, are the same in the end, and all
that was added is answered to be shown. -/
theorem add_unites {audience : Audience μ} {audience' : Audience ν} (passive : audience.Passive)
    (passive' : audience'.Passive) (fits : master.length < Offset.bound) :
    (∀ (session : Session μ) (region : Region), session.UsualIdle master.text →
      region.Inside master.length →
      let added := add (publish audience) master region session
      added.error = none ∧
        session.projection.Unites added.state.projection master.text region) ∧
    ∀ (left : Session μ) (right : Session ν) (regions regions' : List Region),
      left.UsualIdle master.text → left.projection.layout = {} →
      right.UsualIdle master.text → right.projection.layout = {} →
      (∀ region ∈ regions, region.Inside master.length) →
      (∀ region ∈ regions', region.Inside master.length) →
      (∀ position, Region.Cover regions position ↔ Region.Cover regions' position) →
      (∃ position, Region.Cover regions position) →
      let one := left.requests (publish audience) master (regions.map .add)
      let other := right.requests (publish audience') master (regions'.map .add)
      one.2 = (regions.map fun _ => .ok .done) ∧ other.2 = (regions'.map fun _ => .ok .done) ∧
        one.1.projection.layout = other.1.projection.layout ∧
        one.1.projection.text = other.1.projection.text ∧
        ∀ region, 0 < region.length → (∀ position, region.Covers position →
            Region.Cover regions position) →
          one.1.projection.shown master region = .ok (some [region]) ∧
            one.1.projection.hidden master region = .ok [] := by
  constructor
  · intro session region usualIdle inside
    obtain ⟨after, added, usualIdle', shows⟩ :=
      usualIdle.exists_add (publish_informs passive) (publish_spares passive) fits inside
    rw [added]
    exact ⟨rfl, usualIdle'.sound.wellFormed, shows,
      fun _ shown => usualIdle'.sound.wellFormed.layout.runs_fragments shown⟩
  · intro left right regions regions' usualIdle blank usualIdle' blank' inside inside' same some
    obtain ⟨one, added, oneUsualIdle, shows⟩ :=
      usualIdle.exists_adds (publish_informs passive) (publish_spares passive) fits inside
    obtain ⟨other, added', otherUsualIdle, shows'⟩ :=
      usualIdle'.exists_adds (publish_informs passive') (publish_spares passive') fits inside'
    -- Nothing was shown at first, so just the union of the regions is shown in the end.
    have union (position : Nat) : one.projection.layout.Shows position ↔
        Region.Cover regions position := by
      rw [shows, blank]
      exact or_iff_right (Layout.shownBy_nil position)
    have union' (position : Nat) : other.projection.layout.Shows position ↔
        Region.Cover regions' position := by
      rw [shows', blank']
      exact or_iff_right (Layout.shownBy_nil position)
    obtain ⟨position, covered⟩ := some
    have layouts : one.projection.layout = other.projection.layout :=
      oneUsualIdle.sound.wellFormed.layout.eq_of_shows otherUsualIdle.sound.wellFormed.layout
        (fun position => (union position).trans ((same position).trans (union' position).symm))
        ((union position).mpr covered)
    rw [added, added']
    refine ⟨rfl, rfl, layouts, ?_, fun region nonempty within => ?_⟩
    · rw [oneUsualIdle.sound.wellFormed.text_eq, otherUsualIdle.sound.wellFormed.text_eq, layouts]
    · have inside : region.Inside master.length := by
        -- The last character of the region lies in one of the regions that were added.
        obtain ⟨added, member, -, stop⟩ := within (region.stop - 1)
          ⟨by unfold Region.stop; omega, by unfold Region.stop; omega⟩
        have bound := Region.inside_iff.mp (inside added member)
        refine Region.inside_iff.mpr ?_
        unfold Region.stop at stop
        omega
      exact oneUsualIdle.sound.wellFormed.answers oneUsualIdle.closed? fits inside nonempty
        fun position covers => (union position).mpr (within position covers)

/-- The same four characters are added in two parts and in three. -/
theorem add_unites_twice :
    let added := add (publish .counting) { text := ['a', 'b', 'c', 'd', 'e'] } ⟨1, 2⟩ twoEnds
    let one := (start {} 0 0).requests (publish .counting) { text := ['a', 'b', 'c', 'd', 'e'] }
      ([⟨0, 2⟩, ⟨1, 3⟩].map .add)
    let other := (start {} 0 0).requests (publish .counting) { text := ['a', 'b', 'c', 'd', 'e'] }
      ([⟨2, 2⟩, ⟨0, 3⟩, ⟨1, 1⟩].map .add)
    (added.error = none ∧ twoEnds.projection.Unites added.state.projection
        ['a', 'b', 'c', 'd', 'e'] ⟨1, 2⟩) ∧
      one.1.projection.layout = other.1.projection.layout ∧
      one.1.projection.shown { text := ['a', 'b', 'c', 'd', 'e'] } ⟨1, 3⟩ =
        .ok (some [⟨1, 3⟩]) := by
  have fits : Master.length { text := ['a', 'b', 'c', 'd', 'e'] } < Offset.bound := by decide
  have same (position : Nat) : Region.Cover [⟨0, 2⟩, ⟨1, 3⟩] position ↔
      Region.Cover [⟨2, 2⟩, ⟨0, 3⟩, ⟨1, 1⟩] position := by
    simp only [Region.Cover, Region.Covers, Region.stop, List.exists_mem_cons_iff, List.not_mem_nil,
      false_and, exists_false, or_false]
    omega
  have within (position : Nat) (covers : Region.Covers ⟨1, 3⟩ position) :
      Region.Cover [⟨0, 2⟩, ⟨1, 3⟩] position := ⟨⟨1, 3⟩, by simp, covers⟩
  obtain ⟨adds, unions⟩ := add_unites Audience.counting_passive Audience.counting_passive fits
  obtain ⟨-, -, layouts, -, answers⟩ := unions (start {} 0 0) (start {} 0 0) [⟨0, 2⟩, ⟨1, 3⟩]
    [⟨2, 2⟩, ⟨0, 3⟩, ⟨1, 1⟩] (usualIdle_start rfl _ 0 0) rfl (usualIdle_start rfl _ 0 0) rfl (by decide)
    (by decide) same ⟨0, ⟨0, 2⟩, by decide, by decide⟩
  exact ⟨adds twoEnds ⟨1, 2⟩ twoEnds_usualIdle (by decide), layouts,
    (answers ⟨1, 3⟩ (by decide) within).1⟩

end Session

end TextProjection
