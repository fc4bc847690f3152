import TextProjection.Proofs.Session.Fill
import TextProjection.Proofs.Session.Publish
import TextProjection.Proofs.Session.Silence

/-! How often the two loops of a session go round: the one that delivers what waits to be told, and the
one that shows what is hidden of a region. Neither is given a number of rounds here, and both come to an
end, because listeners pay for each of their acts.
-/

set_option autoImplicit false

namespace TextProjection

variable {μ : Type}

namespace Session

/-! Deliveries -/

/-- One notification after the other is delivered, so and so many of them, until none waits. -/
inductive Delivers (audience : Audience μ) (master : Master) : Nat → Session μ → Session μ → Prop
  | none {session : Session μ} (empty : session.projection.listeners.queue = []) :
      Delivers audience master 0 session session
  | next {count : Nat} {session after : Session μ}
      (waiting : session.projection.listeners.queue ≠ [])
      (rest : Delivers audience master count (deliverNext audience master session) after) :
      Delivers audience master (count + 1) session after

/-- A change is put into the queue only, or all that waits then is delivered. -/
def Dispatches (audience : Audience μ) (master : Master) (phase : Phase) (change : Change)
    (session : Session μ) : Prop :=
  let waiting := enqueue master phase change session
  let told := publish audience master phase change session
  if session.projection.listeners.ids = [] ∨ session.projection.listeners.dispatching = true then
    told = waiting
  else ∃ count after, Delivers audience master count (waiting.setDispatching true) after ∧
    told = after.setDispatching false

section
variable {audience : Audience μ} {master : Master} {count : Nat} {session after : Session μ}

theorem deliverNext_of_empty (empty : session.projection.listeners.queue = []) :
    deliverNext audience master session = session := by
  unfold deliverNext
  rw [empty]

theorem Delivers.of_deliverMany (rounds : Nat)
    (delivers : Delivers audience master count (deliverMany audience master rounds session) after) :
    ∃ count, Delivers audience master count session after := by
  induction rounds generalizing session with
  | zero => exact ⟨count, delivers⟩
  | succ rounds ih =>
    obtain ⟨count, delivers⟩ := ih delivers
    by_cases empty : session.projection.listeners.queue = []
    · rw [deliverNext_of_empty empty] at delivers
      exact ⟨count, delivers⟩
    · exact ⟨count + 1, .next empty delivers⟩

theorem exists_delivers_of_drain {rounds : Nat}
    (told : (drain audience master rounds session).projection.listeners.queue = []) :
    ∃ count, Delivers audience master count session (drain audience master rounds session) := by
  induction rounds generalizing session with
  | zero => exact ⟨0, .none told⟩
  | succ rounds ih =>
    unfold drain at told ⊢
    split
    · next empty => exact ⟨0, .none (List.isEmpty_iff.mp empty)⟩
    · next waiting =>
      rw [if_neg waiting] at told
      obtain ⟨count, delivers⟩ := ih told
      exact delivers.of_deliverMany _

theorem publish_dispatches (audience : Audience μ) (master : Master) (phase : Phase) (change : Change)
    (session : Session μ) : session.Dispatches audience master phase change := by
  simp only [Dispatches, publish, List.isEmpty_iff]
  split
  · rfl
  · have allowance : ((enqueue master phase change session).setDispatching true).allowance =
        session.allowance := by
      rw [enqueue_eq]
      rfl
    obtain ⟨count, delivers⟩ := exists_delivers_of_drain (drain_queue audience master allowance.le)
    exact ⟨count, _, delivers, rfl⟩

end

/-! Listeners pay -/

def Paid (before after : Session μ) : Prop :=
  after.allowance < before.allowance ∨ after.allowance = before.allowance ∧
    ∃ listeners, after.projection = { before.projection with listeners }

namespace Paid

variable {first second third : Session μ}

theorem of_projection (allowance : second.allowance = first.allowance)
    (projection : second.projection = first.projection) : first.Paid second :=
  .inr ⟨allowance, _, projection⟩

theorem refl (session : Session μ) : session.Paid session := of_projection rfl rfl

theorem allowance_le (paid : first.Paid second) : second.allowance ≤ first.allowance := by
  rcases paid with less | ⟨same, -⟩
  · exact less.le
  · exact same.le

theorem trans (one : first.Paid second) (other : second.Paid third) : first.Paid third := by
  rcases one with less | ⟨same, listeners, projection⟩
  · exact .inl (Nat.lt_of_le_of_lt other.allowance_le less)
  · rcases other with less | ⟨still, listeners', projection'⟩
    · exact .inl (same ▸ less)
    · exact .inr ⟨still.trans same, listeners', by rw [projection', projection]⟩

end Paid

theorem perform_paid (master : Master) (reaction : Reaction μ) (session : Session μ) :
    session.Paid (perform master reaction session) := by
  cases reaction with
  | rest memory => exact .of_projection rfl rfl
  | act act next =>
    rw [perform_act]
    split
    · exact .refl session
    · next allowance enough =>
      left
      rcases perform_spends master (next (session.act enqueue master act).2
        (session.act enqueue master act).1.projection)
        { (session.act enqueue master act).1 with allowance } with less | ⟨same, -⟩
      · exact Nat.lt_of_lt_of_le less (by simp [enough])
      · exact Nat.lt_of_le_of_lt same.le (by simp [enough])

end Session

def Notifier.Paid (notify : Notifier μ) (master : Master) : Prop :=
  ∀ phase change (session : Session μ), session.Paid (notify master phase change session)

namespace Session

theorem enqueue_paid (master : Master) : (enqueue : Notifier μ).Paid master := by
  intro phase change session
  rw [enqueue_eq]
  exact .inr ⟨rfl, _, rfl⟩

theorem publish_paid (audience : Audience μ) (master : Master) : (publish audience).Paid master := by
  intro phase change session
  have upholds : audience.Upholds session.Paid := {
    queues := fun after queue dispatching paid => paid.trans (.inr ⟨rfl, _, rfl⟩)
    hands := fun after _ _ _ paid _ => paid.trans (.of_projection rfl rfl)
    reacts := fun after delivery paid _ => paid.trans (perform_paid delivery.master _ after) }
  exact publish_upholds upholds master phase change (.refl session)

end Session

/-! Additions -/

theorem Projection.Upkeep.planFill_cases {master : Master} {sound rest : Projection → Prop}
    (upkeep : Upkeep master sound rest) {projection : Projection} (holds : rest projection)
    {region gap : Region}
    (hidden : projection.layout.firstHidden? region = some gap) (edit : Option Edit) :
    (∃ planned, projection.planFill master gap edit = .ok planned ∧
      sound { projection with planned := some planned }) ∨
    ∃ error, projection.planFill master gap edit = .error error := by
  rcases upkeep.hides _ region holds with
    ⟨nothing, -⟩ | ⟨first, others, found, solid, -, -, unshown⟩
  · rw [Layout.firstHidden?, nothing] at hidden
    cases hidden
  · rw [Layout.firstHidden?, found] at hidden
    obtain rfl : first = gap := Option.some.inj hidden
    rcases upkeep.fills _ first edit holds solid unshown with planned | ⟨-, error, plan, -⟩
    · exact .inl planned
    · exact .inr ⟨error, plan⟩

namespace Session

/-- One hidden part of a region after the other is shown, until none is left or one cannot be shown. The
round in which this is found out counts, too. -/
inductive FillsIn (notify : Notifier μ) (master : Master) (region : Region) (edit : Option Edit) :
    Nat → Session μ → Outcome (Session μ) → Prop
  | shown {session : Session μ} (nothing : session.projection.layout.firstHidden? region = none) :
      FillsIn notify master region edit 1 session (.done session)
  | fails {session after : Session μ} {gap : Region} {error : Error}
      (hidden : session.projection.layout.firstHidden? region = some gap)
      (failed : undertakePlan notify master session (session.projection.planFill master gap edit) =
        .fail after error) :
      FillsIn notify master region edit 1 session (.fail after error)
  | round {rounds : Nat} {session middle : Session μ} {outcome : Outcome (Session μ)} {gap : Region}
      (hidden : session.projection.layout.firstHidden? region = some gap)
      (made : undertakePlan notify master session (session.projection.planFill master gap edit) =
        .done middle)
      (rest : FillsIn notify master region edit rounds middle outcome) :
      FillsIn notify master region edit (rounds + 1) session outcome

/-- How often an addition can go round at most: once for each character and once more, and as often
again for each act that listeners may perform meanwhile. -/
def roundsWithin (session : Session μ) (size : Nat) : Nat := (session.allowance + 1) * (size + 1)

/-- An addition ends by itself. A bound that allows for all of its rounds makes no difference, and any
other one cuts it off. -/
def Completes (notify : Notifier μ) (master : Master) (region : Region) (edit : Option Edit)
    (session : Session μ) : Prop :=
  ∃ count outcome, FillsIn notify master region edit count session outcome ∧
    count ≤ session.roundsWithin region.length ∧ ∀ limit rounds,
      (count ≤ rounds → fillGaps notify master region edit limit rounds session = outcome) ∧
      (rounds < count → (fillGaps notify master region edit limit rounds session).error =
        some (.limitExceeded limit))

section
variable {notify : Notifier μ} {master : Master} {region : Region} {edit : Option Edit}
  {session middle : Session μ} {outcome : Outcome (Session μ)} {count : Nat}

theorem FillsIn.fillGaps_eq (fills : FillsIn notify master region edit count session outcome)
    (limit : Nat) {rounds : Nat} (enough : count ≤ rounds) :
    fillGaps notify master region edit limit rounds session = outcome := by
  induction fills generalizing rounds with
  | shown nothing =>
    obtain ⟨rounds, rfl⟩ := Nat.exists_eq_succ_of_ne_zero (Nat.pos_iff_ne_zero.mp enough)
    simp only [fillGaps, nothing]
  | fails hidden failed =>
    obtain ⟨rounds, rfl⟩ := Nat.exists_eq_succ_of_ne_zero (Nat.pos_iff_ne_zero.mp enough)
    simp only [fillGaps, hidden, failed, Outcome.fail_andThen]
  | round hidden made _ ih =>
    obtain ⟨rounds, rfl⟩ := Nat.exists_eq_succ_of_ne_zero
      (Nat.pos_iff_ne_zero.mp (Nat.lt_of_lt_of_le (Nat.succ_pos _) enough))
    simp only [fillGaps, hidden, made, Outcome.done_andThen]
    exact ih (Nat.le_of_succ_le_succ enough)

theorem FillsIn.error_of_lt (fills : FillsIn notify master region edit count session outcome)
    (limit : Nat) {rounds : Nat} (few : rounds < count) :
    (fillGaps notify master region edit limit rounds session).error = some (.limitExceeded limit) := by
  induction fills generalizing rounds with
  | shown _ | fails _ _ =>
    obtain rfl := Nat.lt_one_iff.mp few
    rfl
  | round hidden made _ ih =>
    cases rounds with
    | zero => rfl
    | succ rounds =>
      simp only [fillGaps, hidden, made, Outcome.done_andThen]
      exact ih (Nat.lt_of_succ_lt_succ few)

variable {outgoing : Outgoing} (paid : notify.Paid master)

include paid in
theorem conclude_allowance_le : (conclude notify master session).state.allowance ≤
    session.allowance := by
  unfold conclude
  split
  · exact Nat.le_refl _
  · next planned _ =>
    generalize made : session.within _ = outcome
    have allowance : outcome.state.allowance = session.allowance := by
      rw [← made]
      rfl
    cases failed : outcome.error with
    | none =>
      simp only [Outcome.andThen, failed]
      exact (paid .after planned.change (outcome.state.record _)).allowance_le.trans allowance.le
    | some error =>
      simp only [Outcome.andThen, failed]
      exact allowance.le

include paid in
theorem undertakePlan_allowance_le (plan : Except Error Planned) :
    (undertakePlan notify master session plan).state.allowance ≤ session.allowance := by
  cases plan with
  | error error => exact Nat.le_refl _
  | ok planned =>
    have told := (paid .before planned.change
      (session.update fun projection => { projection with planned := some planned })).allowance_le
    simp only [undertakePlan, undertake]
    split
    · exact told
    · exact (conclude_allowance_le paid).trans told

variable (fits : master.length < Offset.bound) (inside : region.Inside master.length)

include paid fits inside in
/-- In a round that goes well a listener acts, or there is one hidden part less. -/
theorem undertakePlan_progress (sound : session.SoundIdle master.text outgoing) {gap : Region}
    {others : List Region} (hidden : session.projection.layout.hidden region = gap :: others)
    (made : undertakePlan notify master session (session.projection.planFill master gap edit) =
      .done middle) :
    middle.allowance < session.allowance ∨ middle.allowance = session.allowance ∧
      middle.projection.layout.hidden region = others := by
  obtain ⟨action, layout, plan, carries, -, -, left⟩ :=
    exists_filling sound.wellFormed fits inside hidden edit
  generalize Planned.mk action _ = planned at plan carries
  rw [plan] at made
  simp only [undertakePlan, undertake] at made
  have announced := paid .before planned.change
    (session.update fun projection => { projection with planned := some planned })
  generalize notify master .before planned.change _ = told at announced made
  split at made
  · cases made
  · have concluded : middle.allowance ≤ told.allowance := by
      have kept : (conclude notify master told).state.allowance ≤ told.allowance :=
        conclude_allowance_le paid
      rwa [made] at kept
    rcases announced with less | ⟨same, listeners, projection⟩
    · exact .inl (Nat.lt_of_le_of_lt concluded less)
    · -- Nobody has touched the plan, so it is carried out now.
      have cleared : { told.projection with planned := none } =
          { session.projection with listeners } := by
        rw [projection, ← sound.idle]
        rfl
      have planned' : told.projection.planned = some planned := by
        rw [projection]
        rfl
      have carriesTold := carries.free listeners
      rw [← cleared] at carriesTold
      simp only at carriesTold
      rw [conclude_of_carries planned' carriesTold] at made
      obtain rfl := congrArg Outcome.state made
      rcases paid .after planned.change (record _ _) with less | ⟨still, listeners', reported⟩
      · exact .inl (Nat.lt_of_lt_of_le less same.le)
      · refine .inr ⟨still.trans same, ?_⟩
        simp only [Outcome.done, report, reported]
        exact left

/-- How often an addition can go round and find something to show. With every act of a listener it may
start again. -/
def work (session : Session μ) (region : Region) : Nat :=
  session.allowance * (region.length + 1) + (session.projection.layout.hidden region).length

include fits inside in
theorem length_hidden_le (sound : session.SoundIdle master.text outgoing) :
    (session.projection.layout.hidden region).length ≤ region.length := by
  have few := (sound.wellFormed.layout.runs_hidden (Region.stop_lt_of_inside inside fits)).length_le
  rwa [Region.stop, Nat.add_sub_cancel_left] at few

include paid fits inside in
theorem work_lt (sound : session.SoundIdle master.text outgoing)
    (after : middle.SoundIdle master.text outgoing) {gap : Region} {others : List Region}
    (hidden : session.projection.layout.hidden region = gap :: others)
    (made : undertakePlan notify master session (session.projection.planFill master gap edit) =
      .done middle) : middle.work region < session.work region := by
  unfold work
  rcases undertakePlan_progress paid fits inside sound hidden made with less | ⟨same, left⟩
  · have few := length_hidden_le fits inside after
    have paidFor : (middle.allowance + 1) * (region.length + 1) ≤
        session.allowance * (region.length + 1) := Nat.mul_le_mul_right _ less
    rw [Nat.succ_mul] at paidFor
    omega
  · rw [same, left, hidden, List.length_cons]
    omega

include paid fits inside in
/-- An addition with nothing under way comes to an end by itself. -/
theorem exists_fillsIn
    (maintains : notify.Maintains master (Projection.Sound master.text outgoing)
      (Projection.SoundIdle master.text outgoing))
    (sound : session.SoundIdle master.text outgoing) (edit : Option Edit) :
    ∃ count outcome, FillsIn notify master region edit count session outcome ∧
      count + outcome.state.allowance * (region.length + 1) ≤ session.work region + 1 := by
  generalize bound : session.work region = work
  induction work using Nat.strong_induction_on generalizing session with
  | h work ih =>
  subst bound
  rcases maintains.hides _ region sound with ⟨nothing, -⟩ | ⟨gap, others, hidden, -⟩
  · refine ⟨1, _, .shown (by rw [Layout.firstHidden?, nothing]; rfl), ?_⟩
    simp only [Session.work, nothing, Outcome.done, List.length_nil]
    omega
  · have first : session.projection.layout.firstHidden? region = some gap := by
      rw [Layout.firstHidden?, hidden]
      rfl
    have spent : (undertakePlan notify master session
        (session.projection.planFill master gap edit)).state.allowance ≤ session.allowance :=
      undertakePlan_allowance_le paid _
    cases made : undertakePlan notify master session
        (session.projection.planFill master gap edit) with
    | mk middle error =>
      rw [made] at spent
      cases error with
      | some error =>
        refine ⟨1, _, .fails first made, ?_⟩
        have left : middle.allowance * (region.length + 1) ≤
            session.allowance * (region.length + 1) := Nat.mul_le_mul_right _ spent
        simp only [Session.work, Outcome.fail]
        omega
      | none =>
        have after : middle.SoundIdle master.text outgoing := by
          rcases maintains.planFill_cases sound first edit with
            ⟨planned, plan, announced⟩ | ⟨error, plan⟩
          · have ends := undertake_ends maintains announced
            rw [plan] at made
            rw [show undertake notify master session planned = _ from made] at ends
            exact ends.good rfl
          · rw [plan] at made
            cases made
        have less := work_lt paid fits inside sound after hidden made
        obtain ⟨count, outcome, fills, enough⟩ := ih _ less after rfl
        exact ⟨count + 1, outcome, .round first made fills, by omega⟩

include paid fits inside in
theorem fillGaps_completes
    (maintains : notify.Maintains master (Projection.Sound master.text outgoing)
      (Projection.SoundIdle master.text outgoing))
    (sound : session.SoundIdle master.text outgoing) (edit : Option Edit) :
    session.Completes notify master region edit := by
  obtain ⟨count, outcome, fills, enough⟩ := exists_fillsIn paid fits inside maintains sound edit
  have few := length_hidden_le fits inside sound
  refine ⟨count, outcome, fills, ?_,
    fun limit rounds => ⟨fills.fillGaps_eq limit, fills.error_of_lt limit⟩⟩
  rw [work] at enough
  rw [roundsWithin, Nat.succ_mul]
  omega

end

end Session

end TextProjection
