import TextProjection.Proofs.Session.Budget
import TextProjection.Proofs.Session.Pending

/-! What a whole call can cost when each change is told at once, and that it leaves nothing on its way.
-/

set_option autoImplicit false

namespace TextProjection.Session

variable {μ : Type}

/-- How much can come of one call at most, over a text of so many characters. -/
def effort (session : Session μ) (size : Nat) : Nat :=
  (2 * session.allowance + 1) * (size + 2) * (2 * session.crowd + 1)

variable {audience : Audience μ} {master : Master} {session after : Session μ} {outgoing : Outgoing}
  {region : Region} {size most price : Nat}

theorem Costs.journal_le
    (costs : session.Costs session.crowd (fee size session.crowd)
      ((session.roundsWithin size + 1) * (2 * session.crowd + 1)) after)
    (drained : session.projection.listeners.Drained) :
    after.journal.length ≤ session.journal.length + session.effort size := by
  have load := costs.load (Nat.le_refl _)
  have rest : session.load session.crowd (fee size session.crowd) =
      session.journal.length + fee size session.crowd * session.allowance := by
    rw [Session.load, drained.1, List.length_nil, Nat.mul_zero, Nat.add_zero]
  have acts : fee size session.crowd * session.allowance =
      (size + 2) * session.allowance * (2 * session.crowd + 1) := by
    rw [fee, Nat.mul_right_comm]
  have few : (size + 2) * session.allowance + (session.roundsWithin size + 1) ≤
      (2 * session.allowance + 1) * (size + 2) := by
    simp only [roundsWithin, Nat.add_mul, Nat.mul_add, Nat.mul_assoc, Nat.mul_comm size]
    omega
  calc after.journal.length
      ≤ after.load session.crowd (fee size session.crowd) := by
        rw [Session.load, Nat.add_assoc]
        exact Nat.le_add_right _ _
    _ ≤ session.journal.length + ((size + 2) * session.allowance * (2 * session.crowd + 1) +
          (session.roundsWithin size + 1) * (2 * session.crowd + 1)) := by
        rw [← acts, ← Nat.add_assoc, ← rest]
        exact load
    _ ≤ session.journal.length + session.effort size := by
        rw [effort, ← Nat.add_mul]
        exact Nat.add_le_add_left (Nat.mul_le_mul_right _ few) _

theorem coupling_drained (audience : Audience μ) : Coupling (publish audience) (publish audience)
    fun left right => left = right ∧ left.projection.listeners.Drained :=
  .of_same (fun _ _ drained continues => continues.listeners ▸ drained) (fun _ _ drained => drained)
    (fun _ _ drained => drained)
    fun master phase change _ drained => ⟨rfl, publish_drained audience master phase change drained⟩

section
variable (requests : audience.Requests) (fits : master.length < Offset.bound)
  (small : master.length ≤ size)

include requests fits small

theorem exists_fillsIn_publish (inside : region.Inside master.length)
    (sound : session.SoundIdle master.text outgoing) (edit : Option Edit) :
    ∃ count outcome, FillsIn (publish audience) master region edit count session outcome ∧
      count ≤ session.roundsWithin size := by
  obtain ⟨count, outcome, fills, enough, -⟩ := fillGaps_completes (publish_paid audience master) fits
    inside ((publish_respects requests).maintains outgoing) sound edit
  have within : region.offset + region.length ≤ master.length := Region.inside_iff.mp inside
  exact ⟨count, outcome, fills, enough.trans (Nat.mul_le_mul_left _ (by omega))⟩

theorem request_publish_costs (sound : session.SoundIdle master.text outgoing) {request : Request}
    (ranges : request.Ranges) :
    session.Costs most (fee size most) ((session.roundsWithin size + 1) * (2 * most + 1))
      (session.request (publish audience) master request).1 := by
  refine request_costs ((publish_respects requests).maintains outgoing)
    (publish_frugal_sound fits small requests) (publish_paid audience master) (by simp [roundsWithin])
    sound.toSound (fun middle region after left inside => ?_) ranges
  obtain ⟨count, outcome, fills, few⟩ :=
    exists_fillsIn_publish requests fits small inside after none
  exact ⟨count, outcome, fills, few.trans (Nat.mul_le_mul_right _ (Nat.succ_le_succ left))⟩

end

theorem andThen_within_costs {cost : Nat} {outcome : Outcome (Session μ)}
    (costs : session.Costs most price cost outcome.state)
    {operation : Projection → Outcome Projection}
    (same : ∀ projection, (operation projection).state.listeners = projection.listeners) :
    session.Costs most price cost (outcome.andThen (·.within operation)).state := by
  obtain ⟨state, error⟩ := outcome
  cases error with
  | some error => exact costs
  | none =>
    exact costs.ends rfl (congrArg Listeners.ids (same state.projection))
      (congrArg Listeners.queue (same state.projection)) rfl

section
variable {edit : Edit} (requests : audience.Requests) (fits : master.length < Offset.bound)
  (small : master.length ≤ size)

include requests fits small

theorem anticipate_costs (inside : edit.region.Inside master.length)
    (sound : session.SoundIdle master.text .none) (live : session.projection.disposed = false) :
    session.Costs most (fee size most) (session.roundsWithin size * (2 * most + 1))
      (anticipate (publish audience) master edit session).state := by
  rw [anticipate_of_soundIdle fits (Region.stop_lt_of_inside inside fits) sound live]
  refine breakOnFault_costs ?_
  split
  · obtain ⟨count, outcome, fills, few⟩ :=
      exists_fillsIn_publish requests fits small inside sound (some edit)
    have filled (limit rounds : Nat) : session.Costs most (fee size most)
        (session.roundsWithin size * (2 * most + 1))
        (fillGaps (publish audience) master edit.region (some edit) limit rounds session).state :=
      (fills.costs ((publish_respects requests).maintains .none)
        (publish_frugal_sound fits small requests) sound limit rounds).mono
          (Nat.mul_le_mul_right _ few)
    refine andThen_within_costs (filled _ _) fun projection => ?_
    split <;> rfl
  · have same : (session.projection.seeded edit).listeners = session.projection.listeners :=
      (session.projection.continues_seeded edit).listeners
    exact .of_same rfl (congrArg Listeners.ids same) (congrArg Listeners.queue same) rfl

end

section
variable (requests : audience.Requests) {text : Text} {edit : Edit}
  (fits : master.length < Offset.bound)
  (small : master.length ≤ size) (inside : edit.region.Inside text.length)
  (result : master.text = edit.result text)

include requests fits small inside result

theorem confirm_costs (awaits : session.projection.Awaits text outgoing edit) :
    session.Costs most (fee size most) (2 * most + 1)
      (confirm (publish audience) master edit session).state := by
  rw [confirm_of_awaits awaits]
  refine breakOnFault_costs ?_
  obtain ⟨change, pending, foreseen⟩ := awaits.announced
  have isPending := Option.isSome_of_eq_some pending
  have heard : session.projection.Held (change.elim session fun change =>
        publish audience master .before change session).projection ∧
      session.Costs most (fee size most) most (change.elim session fun change =>
        publish audience master .before change session) := by
    have before : session.projection.Held session.projection := .inl ⟨_, _, rfl⟩
    cases change with
    | none => exact ⟨before, .refl session⟩
    | some change => exact ⟨(publish_respects requests).held _ isPending _ _ _ before,
        publish_frugal_held requests isPending _ _ _ before⟩
  have ends : (followAnnounced (publish audience) master edit session).Ends
      (session.Costs most (fee size most) (2 * most + 1)) fun _ => False := by
    refine followAnnounced_spec (fun told => session.projection.Held told.projection ∧
      session.Costs most (fee size most) most told) awaits.live pending heard
      (fun told heard _ => heard.2.mono (by omega)) fun told heard live => ?_
    obtain ⟨held, costs⟩ := heard
    obtain ⟨patched, sound⟩ :=
      awaits.follows foreseen held live inside
    refine ⟨_, patched, ?_⟩
    rw [← result] at sound ⊢
    generalize followed : ({ told.noteDrift edit with projection := _ } : Session μ) = after
    have paid : session.Costs most (fee size most) most after :=
      followed ▸ costs.ends rfl rfl rfl rfl
    have soundIdle : after.SoundIdle master.text outgoing := followed ▸ sound
    cases change with
    | none => exact paid.mono (by omega)
    | some change =>
      have reported : after.Costs most (fee size most) (most + 1)
          (after.report (publish audience) master change) :=
        report_costs (publish_frugal_sound fits small requests) soundIdle.toSound change
      exact (paid.trans reported).mono (by omega)
  exact ends.success.2

end

section
variable (requests : audience.Requests) {image : Region} {text : Text}

include requests

theorem editMaster_costs {cost : Nat} (inside : region.Inside master.length)
    (anticipated : session.Costs most (fee size most) cost (anticipate (publish audience)
      { master with nextEdit := master.nextEdit + 1 } ⟨master.nextEdit, region, text⟩ session).state)
    (awaits : (anticipate (publish audience) { master with nextEdit := master.nextEdit + 1 }
      ⟨master.nextEdit, region, text⟩ session).Ends
        (fun session => session.projection.Awaits master.text outgoing ⟨master.nextEdit, region, text⟩)
        fun _ => True)
    (fitsAfter : (editMaster (publish audience) master region text session).state.1.length <
      Offset.bound)
    (smallAfter : (editMaster (publish audience) master region text session).state.1.length ≤ size) :
    session.Costs most (fee size most) (cost + (2 * most + 1))
      (editMaster (publish audience) master region text session).state.2 := by
  unfold editMaster at fitsAfter smallAfter ⊢
  simp only [Master.prepare_eq inside] at fitsAfter smallAfter ⊢
  generalize anticipate (publish audience) _ _ session = outcome at *
  obtain ⟨middle, error⟩ := outcome
  cases error with
  | some error => exact anticipated.mono (Nat.le_add_right _ _)
  | none =>
    simp only [Outcome.map, Outcome.andThen, Master.commit_prepared inside] at fitsAfter smallAfter ⊢
    exact anticipated.trans
      (confirm_costs requests fitsAfter smallAfter inside rfl (awaits.good rfl))

variable (fits : master.length < Offset.bound) (small : master.length ≤ size)

include fits small

theorem editMaster_publish_costs (sound : session.SoundIdle master.text .none)
    (live : session.projection.disposed = false) (inside : region.Inside master.length)
    (fitsAfter : (editMaster (publish audience) master region text session).state.1.length <
      Offset.bound)
    (smallAfter : (editMaster (publish audience) master region text session).state.1.length ≤ size) :
    session.Costs most (fee size most) ((session.roundsWithin size + 1) * (2 * most + 1))
      (editMaster (publish audience) master region text session).state.2 := by
  have anticipated : session.Costs most (fee size most)
      (session.roundsWithin size * (2 * most + 1)) (anticipate (publish audience)
        { master with nextEdit := master.nextEdit + 1 } ⟨master.nextEdit, region, text⟩
        session).state :=
    anticipate_costs requests fits small inside sound live
  have awaits : (anticipate (publish audience) { master with nextEdit := master.nextEdit + 1 }
      ⟨master.nextEdit, region, text⟩ session).Ends
        (fun session => session.projection.Awaits master.text .none ⟨master.nextEdit, region, text⟩)
        (SoundIdle master.text .none) :=
    anticipate_awaits fits (publish_respects requests) inside sound live
  rw [Nat.succ_mul (session.roundsWithin size)]
  exact editMaster_costs requests inside anticipated (awaits.mono (fun _ awaits => awaits)
    fun _ _ => trivial) fitsAfter smallAfter

omit small in
theorem replace_publish_costs (sound : session.SoundIdle master.text .none)
    (fitsAfter : (replace (publish audience) master image text session).state.1.length < Offset.bound)
    (smallAfter : (replace (publish audience) master image text session).state.1.length ≤ size) :
    session.Costs most (fee size most) (2 * most + 1)
      (replace (publish audience) master image text session).state.2 := by
  unfold replace at fitsAfter smallAfter ⊢
  rcases beginForwarding_cases sound.toSound image text with
    ⟨error, refused, -⟩ | ⟨live, ready, inside⟩
  · simp only [refused]
    exact .refl session
  · obtain ⟨origin, begun, originInside, -, foreseen⟩ :=
      sound.wellFormed.exists_beginForwarding fits ready inside text
    obtain ⟨admits, place⟩ := foreseen ⟨master.nextEdit, origin, text⟩ rfl
    simp only [begun] at fitsAfter smallAfter ⊢
    generalize forwarding : ({ session with projection := { session.projection with
      outgoing := .forwarding (some ⟨.content, image, text, origin, none⟩) } } : Session μ) = started
      at fitsAfter smallAfter ⊢
    have forwarded : anticipate (publish audience) { master with nextEdit := master.nextEdit + 1 }
        ⟨master.nextEdit, origin, text⟩ started = .done { session with
          projection := session.projection.awaitForwarded image ⟨master.nextEdit, origin, text⟩ } :=
      forwarding ▸ anticipate_forwarding fits originInside sound live
    have same := (session.projection.continues_seeded ⟨master.nextEdit, origin, text⟩).listeners
    have anticipated : started.Costs most (fee size most) 0 (anticipate (publish audience)
        { master with nextEdit := master.nextEdit + 1 } ⟨master.nextEdit, origin, text⟩
        started).state := by
      rw [forwarded, ← forwarding]
      exact .of_same rfl (congrArg Listeners.ids same) (congrArg Listeners.queue same) rfl
    have awaits : (anticipate (publish audience) { master with nextEdit := master.nextEdit + 1 }
        ⟨master.nextEdit, origin, text⟩ started).Ends (fun session => session.projection.Awaits
          master.text (.forwarding none) ⟨master.nextEdit, origin, text⟩) fun _ => True := by
      rw [forwarded]
      exact .done (sound.awaits_forwarded live admits place)
    have edited := editMaster_costs requests originInside anticipated awaits fitsAfter smallAfter
    rw [Nat.zero_add] at edited
    exact (edited.begins (by rw [← forwarding]) (by rw [← forwarding]) (by rw [← forwarding])
      (by rw [← forwarding])).ends rfl rfl rfl rfl

end

end TextProjection.Session
