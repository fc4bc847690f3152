import TextProjection.Proofs.Session.Union

/-! How far an addition gets. The hidden parts of a range are shown from the left on, one in a round;
the bound is fixed at the start, and one more round is needed to see that nothing is hidden any more.
-/

set_option autoImplicit false

namespace TextProjection

variable {μ : Type}

instance (regions : List Region) : DecidablePred (Region.Cover regions) :=
  fun position => inferInstanceAs (Decidable (∃ region ∈ regions, region.Covers position))

theorem Region.cover_append_singleton (regions : List Region) (region : Region) (position : Nat) :
    Region.Cover (regions ++ [region]) position ↔
      Region.Cover regions position ∨ region.Covers position := by
  simp [Region.Cover, or_and_right, exists_or]

/-- The changes by which parts of the master text are shown one after the other. Each is put in behind
what is shown before it by then, that is, of the layout and of the parts that are already filled. -/
def Layout.fillings (layout : Layout) (master : Text) (edit : Option Edit) (filled : List Region) :
    List Region → List Change
  | [] => []
  | gap :: rest =>
    ⟨.projection,
      ⟨Nat.count (fun position => layout.Shows position ∨ Region.Cover filled position) gap.offset, 0⟩,
      master.slice gap, gap, edit⟩ :: layout.fillings master edit (filled ++ [gap]) rest

namespace Session

variable {notify : Notifier μ} {master : Master} {outgoing : Outgoing} {session : Session μ}
  {region : Region}

/-- Of the hidden parts of a region as many are shown as there are rounds, from the left on, and each is
told to the listeners. It fails unless there is a round more than parts. -/
theorem fillGaps_exact (informs : notify.Informs) (fits : master.length < Offset.bound)
    (inside : region.Inside master.length) (liveIdle : session.LiveIdle master.text)
    (edit : Option Edit) (limit rounds : Nat) {layout : Layout} {filled : List Region}
    (before : ∀ position, session.projection.layout.Shows position ↔
      layout.Shows position ∨ Region.Cover filled position) :
    let gaps := session.projection.layout.hidden region
    ∃ after, fillGaps notify master region edit limit rounds session =
        (if gaps.length < rounds then .done after else .fail after (.limitExceeded limit)) ∧
      session.projection.Reshapes after.projection ∧
      after.projection.WellFormed master.text ∧
      (∀ position, after.projection.layout.Shows position ↔
        session.projection.layout.Shows position ∨ Region.Cover (gaps.take rounds) position) ∧
      after.notices = session.notices ++
        (layout.fillings master.text edit filled (gaps.take rounds)).flatMap session.tidings := by
  -- What is filled counts as shown from then on, so the places of later parts lie behind it.
  induction rounds generalizing session filled with
  | zero =>
    refine ⟨session, rfl, .refl _, liveIdle.sound.wellFormed, fun position => ?_, ?_⟩
    · simp [Region.Cover]
    · simp [Layout.fillings]
  | succ rounds ih =>
    intro gaps
    cases hidden : gaps with
    | nil =>
      refine ⟨session, ?_, .refl _, liveIdle.sound.wellFormed, fun position => ?_, ?_⟩
      · simp [fillGaps, Layout.firstHidden?,
          show session.projection.layout.hidden region = [] from hidden]
      · simp [Region.Cover]
      · simp [Layout.fillings]
    | cons gap others =>
      obtain ⟨middle, made, done, projection, wf, shows, -, left, notices⟩ :=
        undertake_filling informs liveIdle.drained fits inside liveIdle.sound liveIdle.live hidden edit
      obtain rfl : made = middle.projection.layout := by rw [projection]
      have liveIdleMiddle : middle.LiveIdle master.text := by
        refine liveIdle.reshaped ⟨_, _, projection⟩ ⟨wf, ?_⟩
        rw [projection]
      have beforeMiddle (position : Nat) : middle.projection.layout.Shows position ↔
          layout.Shows position ∨ Region.Cover (filled ++ [gap]) position := by
        rw [shows, before, Region.cover_append_singleton, or_assoc]
      obtain ⟨after, filled', reshapes, wfAfter, showsAfter, noticesAfter⟩ :=
        ih liveIdleMiddle beforeMiddle
      rw [left] at filled' showsAfter noticesAfter
      refine ⟨after, ?_, .trans ⟨_, _, projection⟩ reshapes, wfAfter, fun position => ?_, ?_⟩
      · simp only [fillGaps, Layout.firstHidden?,
          show session.projection.layout.hidden region = gap :: others from hidden, List.head?_cons,
          done, Outcome.done_andThen, filled', List.length_cons, Nat.add_lt_add_iff_right]
      · rw [showsAfter, shows, or_assoc, List.take_succ_cons]
        simp [Region.Cover]
      · have place : session.projection.layout.rank gap.offset =
            Nat.count (fun position => layout.Shows position ∨ Region.Cover filled position)
              gap.offset := by
          exact count_congr fun position _ => before position
        have tidings : middle.tidings = session.tidings := by
          funext change
          rw [tidings, tidings, projection]
        rw [noticesAfter, notices, tidings, place, List.take_succ_cons, Layout.fillings,
          List.flatMap_cons, List.append_assoc]

theorem LiveIdle.add_eq (liveIdle : session.LiveIdle master.text)
    (inside : region.Inside master.length) :
    add notify master region session = breakOnFault (fill notify master region none session) := by
  rw [add, liveIdle.changeRanges_eq inside]

/-- An addition shows the hidden parts of a range from the left on, up to one more than the bound
allows, and all listeners are told of each of them, before and after. It succeeds exactly if there are
not more of them than the bound allows, which is always so for the usual one. -/
theorem add_fills {audience : Audience μ} (passive : audience.Passive)
    (fits : master.length < Offset.bound) (liveIdle : session.LiveIdle master.text)
    (inside : region.Inside master.length) :
    let gaps := session.projection.layout.hidden region
    let limit := session.projection.options.bound.limit session.projection.layout.size
    let added := add (publish audience) master region session
    session.projection.hidden master region = .ok gaps ∧
    added.error = (if gaps.length ≤ limit then none else some (.limitExceeded limit)) ∧
    session.projection.Reshapes added.state.projection ∧
    added.state.projection.WellFormed master.text ∧ added.state.projection.broken = false ∧
    (∀ position, added.state.projection.layout.Shows position ↔
      session.projection.layout.Shows position ∨ Region.Cover (gaps.take (limit + 1)) position) ∧
    added.state.notices = session.notices ++
      (session.projection.layout.fillings master.text none [] (gaps.take (limit + 1))).flatMap
        session.tidings ∧
    (session.projection.options.bound = {} → added.error = none) := by
  intro gaps limit added
  have wf := liveIdle.sound.wellFormed.layout
  have start (position : Nat) : session.projection.layout.Shows position ↔
      session.projection.layout.Shows position ∨ Region.Cover [] position := by
    simp [Region.Cover]
  obtain ⟨after, filled, reshapes, wfAfter, shows, notices⟩ :=
    fillGaps_exact (publish_informs passive) fits inside liveIdle none limit (limit + 1) start
  have outcome : added = if gaps.length ≤ limit then .done after
      else .fail after (.limitExceeded limit) := by
    simp only [added, liveIdle.add_eq inside, fill]
    rw [filled]
    simp only [Nat.lt_succ_iff]
    split <;> rfl
  have state : added.state = after := by
    rw [outcome]
    split <;> rfl
  have error : added.error = if gaps.length ≤ limit then none else some (.limitExceeded limit) := by
    rw [outcome]
    split <;> rfl
  rw [state]
  refine ⟨?_, error, reshapes, wfAfter, (liveIdle.reshaped reshapes wfAfter).sound.whole, shows, notices,
    fun usual => ?_⟩
  · have opened : session.projection.closed?.or (master.outside? region) = none := by
      rw [liveIdle.closed?, Master.outside?_of_inside inside, Option.or_none]
    simp only [Projection.hidden, opened]
    rfl
  · have few := wf.length_hidden_le_limit (Region.stop_lt_of_inside inside fits)
    rw [← usual] at few
    rw [error, if_pos few]

def spotted : Session Nat where
  projection := {
    layout := ⟨[⟨⟨1, 1, false⟩, ⟨0, 1, false⟩⟩, ⟨⟨3, 1, false⟩, ⟨1, 1, false⟩⟩]⟩
    text := ['b', 'd']
    options := { bound := ⟨0, 1⟩ }
    listeners := { ids := [0], nextId := 1 } }
  memory := 0
  allowance := 0

theorem spotted_liveIdle : spotted.LiveIdle ['a', 'b', 'c', 'd', 'e'] where
  live := rfl
  drained := ⟨rfl, rfl⟩
  sound := by
    refine Projection.WellFormed.soundIdle (⟨?_, rfl⟩ : Projection.WellFormed _ _) rfl rfl rfl rfl
    exact {
      live := by decide
      tiled := by simp [spotted, Layout.Tiles]
      apart := by decide
      solid := by decide
      inside := by decide }

/-- Of the three hidden parts, two are shown. -/
theorem add_fills_two :
    let added := add (publish .counting) { text := ['a', 'b', 'c', 'd', 'e'] } ⟨0, 5⟩
      spotted
    added.error = some (.limitExceeded 1) ∧
      added.state.projection.WellFormed ['a', 'b', 'c', 'd', 'e'] ∧
      added.state.notices.map (fun notice =>
        (notice.2.phase, notice.2.change.image, notice.2.change.text)) =
        [(.before, ⟨0, 0⟩, ['a']), (.after, ⟨0, 0⟩, ['a']), (.before, ⟨2, 0⟩, ['c']),
          (.after, ⟨2, 0⟩, ['c'])] := by
  have fits : Master.length { text := ['a', 'b', 'c', 'd', 'e'] } < Offset.bound := by decide
  obtain ⟨-, error, -, wf, -, -, notices, -⟩ :=
    add_fills Audience.counting_passive fits spotted_liveIdle (by decide : Region.Inside ⟨0, 5⟩ _)
  exact ⟨error, wf, by rw [notices]; decide⟩

end Session

end TextProjection
