import TextProjection.Proofs.Outcome
import TextProjection.Proofs.Projection.Plan
import TextProjection.Session.Dispatch

/-! The invariant of a session between two acts, and range changes that keep it. Whatever
tells the listeners has to keep it too, because they may act on the projection.
-/

set_option autoImplicit false

namespace TextProjection

namespace Projection

/-- The projection is well-formed for the master text, and no edit keeps it from changing its ranges.
A range change that was announced can still be carried out. -/
structure Sound (master : Text) (outgoing : Outgoing) (projection : Projection) : Prop where
  wellFormed : projection.WellFormed master
  whole : projection.broken = false
  free : projection.pending = none
  current : ∀ planned, projection.planned = some planned →
    planned.Current projection.layout master
  cleared : projection.disposed = true → projection.layout = {}
  forwards : projection.disposed = false → projection.outgoing = outgoing

/-- No range change is under way either. -/
structure SoundIdle (master : Text) (outgoing : Outgoing) (projection : Projection) : Prop
    extends projection.Sound master outgoing where
  idle : projection.planned = none

/-- What holds of a projection does not depend on its settings and listeners, and holds of it
when it is disposed. -/
structure Casual (property : Projection → Prop) : Prop where
  settings : ∀ projection options, property projection →
    property { projection with options := options }
  audience : ∀ projection listeners, property projection →
    property { projection with listeners := listeners }
  dispose : ∀ projection, property projection → property projection.dispose

variable {master : Text} {outgoing : Outgoing} {projection : Projection}

theorem WellFormed.soundIdle (wf : projection.WellFormed master) (live : projection.disposed = false)
    (whole : projection.broken = false) (free : projection.pending = none)
    (idle : projection.planned = none) : projection.SoundIdle master projection.outgoing where
  wellFormed := wf
  whole := whole
  free := free
  current _ planned := nomatch idle.symm.trans planned
  cleared disposed := nomatch live.symm.trans disposed
  forwards _ := rfl
  idle := idle

theorem Sound.closed?_eq (sound : projection.Sound master outgoing) :
    projection.closed? = if projection.disposed then some .disposed else none := by
  simp [closed?, sound.whole]

theorem Sound.refuses?_eq (sound : projection.Sound master outgoing) :
    projection.refuses? = if projection.disposed then some .disposed else none := by
  rw [refuses?, sound.closed?_eq, sound.free]
  simp

theorem Sound.exists_carries (sound : projection.Sound master outgoing) {planned : Planned}
    (found : projection.planned = some planned) :
    ∃ layout, { projection with planned := none }.Carries master planned layout := by
  have cleared : { projection with planned := none }.WellFormed master :=
    sound.wellFormed.congr rfl rfl
  exact cleared.exists_carries (sound.current planned found)

theorem Sound.soundIdle_carried (sound : projection.Sound master outgoing)
    (live : projection.disposed = false) {planned : Planned} {layout : Layout}
    (carries : { projection with planned := none }.Carries master planned layout) :
    { projection with planned := none, layout, text := layout.textUnder master }.SoundIdle master
      outgoing where
  wellFormed := ⟨carries.wellFormed, rfl⟩
  whole := sound.whole
  free := sound.free
  current _ planned := nomatch planned
  cleared disposed := nomatch live.symm.trans disposed
  forwards := sound.forwards
  idle := rfl

theorem casual_sound : Casual (Sound master outgoing) where
  settings _ _ sound := { sound with wellFormed := sound.wellFormed.congr rfl rfl }
  audience _ _ sound := { sound with wellFormed := sound.wellFormed.congr rfl rfl }
  dispose projection sound := by
    unfold Projection.dispose
    split
    · exact sound
    · exact {
        wellFormed := ⟨Layout.WellFormed.nil, rfl⟩
        whole := sound.whole
        free := rfl
        current := nofun
        cleared := fun _ => rfl
        forwards := nofun }

theorem casual_soundIdle : Casual (SoundIdle master outgoing) where
  settings _ _ sound := ⟨casual_sound.settings _ _ sound.toSound, sound.idle⟩
  audience _ _ sound := ⟨casual_sound.audience _ _ sound.toSound, sound.idle⟩
  dispose projection sound := by
    refine ⟨casual_sound.dispose _ sound.toSound, ?_⟩
    unfold Projection.dispose
    split
    · exact sound.idle
    · rfl

/-- What changes of ranges keep. While one is under way, `sound` holds of the projection; otherwise
`rest` does. -/
structure Upkeep (master : Master) (sound rest : Projection → Prop) : Prop where
  sound_casual : Casual sound
  rest_casual : Casual rest
  sound_of_rest : ∀ projection, rest projection → sound projection
  rest_of_dropped : ∀ projection, sound projection → rest { projection with planned := none }
  idle : ∀ projection, rest projection → projection.planned = none
  usable : ∀ projection, sound projection → projection.broken = false ∧ projection.pending = none
  carries : ∀ projection planned, sound projection → projection.disposed = false →
    projection.planned = some planned → ∃ layout text,
      { projection with planned := none }.carryOut planned =
        .done { projection with planned := none, layout, text } ∧
      rest { projection with planned := none, layout, text }
  hides : ∀ projection region, rest projection →
    (projection.layout.hidden region = [] ∧ (region.stop < Offset.bound →
      ∀ position, region.Covers position → projection.layout.Shows position)) ∨
    ∃ gap others, projection.layout.hidden region = gap :: others ∧ 0 < gap.length ∧
      region.offset ≤ gap.offset ∧ gap.stop ≤ region.stop ∧
      ∀ position, gap.Covers position → ¬ projection.layout.Shows position
  fills : ∀ projection (gap : Region) edit, rest projection → 0 < gap.length →
    (∀ position, gap.Covers position → ¬ projection.layout.Shows position) →
    (∃ planned, projection.planFill master gap edit = .ok planned ∧
      sound { projection with planned := some planned }) ∨
    ¬ gap.Inside master.length ∧
      ∃ error, projection.planFill master gap edit = .error error ∧ error.isFault = false
  removes : ∀ projection (region : Region), rest projection → 0 < region.length →
    region.Inside master.length →
    (∃ planned, projection.planRemoval region = .ok planned ∧
      sound { projection with planned := some planned }) ∨
    projection.planRemoval region = .error (.notShown region)
  resets : ∀ projection (region : Region), rest projection → region.Inside master.length →
    ∃ planned, projection.planReset master region = .ok planned ∧
      sound { projection with planned := some planned }

theorem upkeep_sound {master : Master} :
    Upkeep master (Sound master.text outgoing) (SoundIdle master.text outgoing) := by
  have announced {projection : Projection} {planned : Planned}
      (rest : projection.SoundIdle master.text outgoing)
      (current : planned.Current projection.layout master.text) :
      { projection with planned := some planned }.Sound master.text outgoing :=
    { rest.toSound with
      wellFormed := rest.wellFormed.congr rfl rfl
      current := fun other same => Option.some.inj same ▸ current }
  exact {
    sound_casual := casual_sound
    rest_casual := casual_soundIdle
    sound_of_rest := fun _ rest => rest.toSound
    rest_of_dropped := fun _ sound => ⟨{ sound with
      wellFormed := sound.wellFormed.congr rfl rfl
      current := nofun }, rfl⟩
    idle := fun _ rest => rest.idle
    usable := fun _ sound => ⟨sound.whole, sound.free⟩
    carries := fun _ _ sound live found => by
      obtain ⟨layout, carries⟩ := sound.exists_carries found
      exact ⟨layout, _, carries.done, sound.soundIdle_carried live carries⟩
    hides := fun _ region rest => rest.wellFormed.layout.hidden_cases region
    fills := fun _ _ edit rest nonempty hidden => by
      rcases rest.wellFormed.planFill_cases nonempty hidden edit with
        ⟨planned, plan, current⟩ | refused
      · exact .inl ⟨planned, plan, announced rest current⟩
      · exact .inr refused
    removes := fun _ _ rest nonempty inside => by
      rcases rest.wellFormed.planRemoval_spec nonempty with
        ⟨planned, plan, current⟩ | refused
      · exact .inl ⟨planned, plan, announced rest current⟩
      · exact .inr refused
    resets := fun _ _ rest inside => by
      obtain ⟨planned, plan, current⟩ := rest.wellFormed.exists_planReset inside
      exact ⟨planned, plan, announced rest current⟩ }

section
variable {master : Master} {sound rest : Projection → Prop} (upkeep : Upkeep master sound rest)

include upkeep

theorem Upkeep.closed?_eq (holds : sound projection) :
    projection.closed? = if projection.disposed then some .disposed else none := by
  simp [closed?, (upkeep.usable projection holds).1]

theorem Upkeep.refuses?_eq (holds : sound projection) :
    projection.refuses? = if projection.disposed then some .disposed else none := by
  rw [refuses?, upkeep.closed?_eq holds, (upkeep.usable projection holds).2]
  simp

theorem Upkeep.rest_of_idle (holds : sound projection) (idle : projection.planned = none) :
    rest projection := by
  have dropped := upkeep.rest_of_dropped projection holds
  rwa [← idle] at dropped

end

end Projection

variable {μ : Type}

def Notifier.Keeps (notify : Notifier μ) (master : Master) (property : Projection → Prop) : Prop :=
  ∀ phase change session, property session.projection →
    property (notify master phase change session).projection

structure Notifier.Maintains (notify : Notifier μ) (master : Master) (sound rest : Projection → Prop) :
    Prop extends Projection.Upkeep master sound rest where
  keepsSound : notify.Keeps master sound
  keepsRest : notify.Keeps master rest

namespace Session

variable {notify : Notifier μ} {master : Master} {outgoing : Outgoing} {session : Session μ}
  {planned : Planned} {region : Region}

def SoundIdle (master : Text) (outgoing : Outgoing) (session : Session μ) : Prop :=
  session.projection.SoundIdle master outgoing

section
variable {sound rest : Projection → Prop} (maintains : notify.Maintains master sound rest)

include maintains in
theorem conclude_ends (holds : sound session.projection)
    (live : session.projection.disposed = false) :
    (conclude notify master session).Ends (fun session => rest session.projection)
      fun _ => False := by
  unfold conclude
  split
  · next idle => exact .done (maintains.toUpkeep.rest_of_idle holds idle)
  · next planned found =>
    obtain ⟨layout, text, carried, after⟩ := maintains.carries _ planned holds live found
    simp only [within, carried, Outcome.map, Outcome.done, Outcome.andThen]
    exact .done (maintains.keepsRest _ _ _ after)

include maintains in
theorem undertake_ends (announced : sound { session.projection with planned := some planned }) :
    (undertake notify master session planned).Ends (fun session => rest session.projection)
      fun session => rest session.projection := by
  have told := maintains.keepsSound .before planned.change
    (session.update fun projection => { projection with planned := some planned }) announced
  -- A listener may have disposed of the projection, and then the plan is dropped.
  unfold undertake
  simp only [maintains.toUpkeep.closed?_eq told]
  split
  · next closed =>
    split at closed
    · obtain rfl := Option.some.inj closed
      exact .fail rfl (maintains.rest_of_dropped _ told)
    · cases closed
  · next opened =>
    split at opened
    · cases opened
    · next live =>
      exact (conclude_ends maintains told (by simpa using live)).mono
        (fun _ after => after) fun _ never => never.elim

include maintains in
/-- As long as the rounds last, the hidden parts of a region are filled, unless one of them lies
outside of the master text. -/
theorem fillGaps_ends (edit : Option Edit) (limit rounds : Nat)
    (holds : rest session.projection) :
    (fillGaps notify master region edit limit rounds session).Ends
      (fun session => rest session.projection ∧ (region.stop < Offset.bound →
        ∀ position, region.Covers position → session.projection.layout.Shows position))
      fun session => rest session.projection := by
  induction rounds generalizing session with
  | zero => exact .fail rfl holds
  | succ rounds ih =>
    rw [fillGaps]
    rcases maintains.hides _ region holds with
      ⟨none, shown⟩ | ⟨gap, others, some, nonempty, -, -, hidden⟩
    · simp only [Layout.firstHidden?, none, List.head?_nil]
      exact .done ⟨holds, shown⟩
    · simp only [Layout.firstHidden?, some, List.head?_cons]
      rcases maintains.fills _ gap edit holds nonempty hidden with
        ⟨planned, plan, announced⟩ | ⟨-, error, plan, refusal⟩
      · simp only [plan, undertakePlan]
        exact (undertake_ends maintains announced).andThen
          fun session holds => ih holds
      · simp only [plan, undertakePlan]
        exact .fail refusal holds

include maintains in
theorem fill_ends (region : Region) (edit : Option Edit) (holds : rest session.projection) :
    (fill notify master region edit session).Ends
      (fun session => rest session.projection ∧ (region.stop < Offset.bound →
        ∀ position, region.Covers position → session.projection.layout.Shows position))
      fun session => rest session.projection :=
  fillGaps_ends maintains edit _ _ holds

include maintains in
theorem changeRanges_ends {property : Projection → Prop} {operation : Session μ → Outcome (Session μ)}
    (weaker : ∀ projection, rest projection → property projection)
    (stronger : ∀ projection, property projection → sound projection)
    (ends : ∀ session, rest session.projection → region.Inside master.length →
      (operation session).Ends (fun session => rest session.projection)
        fun session => rest session.projection)
    (holds : property session.projection) :
    (changeRanges notify master region session operation).Ends
      (fun session => property session.projection)
      fun session => property session.projection := by
  have before := stronger _ holds
  refine .guarded (fun error objects => ⟨?_, holds⟩) fun allowed => ?_
  · rw [maintains.toUpkeep.refuses?_eq before] at objects
    split at objects
    · obtain rfl := Option.some.inj objects
      rfl
    · rw [Option.none_or, Master.outside?, Region.outside?] at objects
      split at objects
      · cases objects
      · obtain rfl := Option.some.inj objects
        rfl
  · obtain ⟨opened, inside⟩ := Option.or_eq_none_iff.mp allowed
    rw [maintains.toUpkeep.refuses?_eq before] at opened
    have live : session.projection.disposed = false := by
      by_contra closed
      simp [closed] at opened
    -- A range change that is still under way is brought to its end first.
    have concluded : (conclude notify master session).Ends (fun session => rest session.projection)
        fun session => property session.projection :=
      (conclude_ends maintains before live).mono (fun _ after => after) fun _ never => never.elim
    exact .breakOnFault <| concluded.andThen fun session holds =>
      (ends session holds (Region.outside?_eq_none_iff.mp inside)).mono
        (fun session after => weaker _ after) fun session after => weaker _ after

include maintains in
/-- A request keeps the invariant, and its reply is not a fault. -/
theorem request_spec {property : Projection → Prop}
    (weaker : ∀ projection, rest projection → property projection)
    (stronger : ∀ projection, property projection → sound projection)
    (casual : Projection.Casual property) (holds : property session.projection) (request : Request) :
    property (session.request notify master request).1.projection ∧
      ∀ error, (session.request notify master request).2 = .error error → error.isFault = false := by
  have replied {outcome : Outcome (Session μ)}
      (ends : outcome.Ends (fun session => property session.projection)
        fun session => property session.projection) :
      property outcome.reply.1.projection ∧
        ∀ error, outcome.reply.2 = .error error → error.isFault = false :=
    ⟨ends.state, fun _ => ends.reply⟩
  cases request with
  | add region =>
    exact replied <| changeRanges_ends maintains weaker stronger
      (fun session before _ => (fill_ends maintains region none before).mono
        (fun _ filled => filled.1) fun _ after => after) holds
  | remove region =>
    refine replied <| changeRanges_ends maintains weaker stronger
      (fun session before inside => ?_) holds
    split
    · exact .done before
    · next solid =>
      have nonempty : 0 < region.length := by
        simpa [Region.isEmpty, Nat.pos_iff_ne_zero] using solid
      rcases maintains.removes _ region before nonempty inside with ⟨planned, plan, announced⟩ | plan
      · rw [plan]
        exact undertake_ends maintains announced
      · rw [plan]
        exact .fail rfl before
  | reset region =>
    refine replied <| changeRanges_ends maintains weaker stronger
      (fun session before inside => ?_) holds
    obtain ⟨planned, plan, announced⟩ := maintains.resets _ region before inside
    rw [plan]
    exact undertake_ends maintains announced
  | setAutoExpand on => exact ⟨casual.settings _ _ holds, fun _ refused => by cases refused⟩
  | subscribe => exact ⟨casual.audience _ _ holds, fun _ refused => by cases refused⟩
  | unsubscribe listener => exact ⟨casual.audience _ _ holds, fun _ refused => by cases refused⟩
  | dispose => exact ⟨casual.dispose _ holds, fun _ refused => by cases refused⟩

end

end Session

end TextProjection
