import TextProjection.Proofs.Session.Coupling
import TextProjection.Proofs.Session.Fill

/-! A session in use in which nothing is under way. Whatever ranges are asked of it, nothing is under
way again afterwards, as long as its listeners only look on.
-/

set_option autoImplicit false

namespace TextProjection

variable {μ : Type}

theorem Notifier.Spares.keeps {notify : Notifier μ} {master : Master} (spares : notify.Spares master)
    {property : Projection → Prop} (free : ∀ projection listeners, property projection →
      property { projection with listeners := listeners }) : notify.Keeps master property := by
  intro phase change session holds
  obtain ⟨listeners, same⟩ := spares session.projection phase change session ⟨_, rfl⟩
  rw [same]
  exact free _ _ holds

def Projection.Reshapes (before after : Projection) : Prop :=
  ∃ layout text, after = { before with layout, text }

namespace Projection.Reshapes

variable {before middle after : Projection}

theorem refl (projection : Projection) : projection.Reshapes projection := ⟨_, _, rfl⟩

theorem trans (first : before.Reshapes middle) (second : middle.Reshapes after) :
    before.Reshapes after := by
  obtain ⟨_, _, rfl⟩ := first
  obtain ⟨_, _, rfl⟩ := second
  exact ⟨_, _, rfl⟩

theorem eq (reshapes : before.Reshapes after) (layout : after.layout = before.layout)
    (text : after.text = before.text) : after = before := by
  obtain ⟨_, _, rfl⟩ := reshapes
  obtain rfl : _ = before.layout := layout
  obtain rfl : _ = before.text := text
  rfl

end Projection.Reshapes

namespace Session

/-- The session is in use, its listeners were told everything, and nothing is under way. -/
structure LiveIdle (master : Text) (session : Session μ) : Prop where
  live : session.projection.disposed = false
  drained : session.projection.listeners.Drained
  sound : session.SoundIdle master session.projection.outgoing

/-- The session is in use, its listeners were told everything, and the bound is the usual one. Requests
for ranges leave all this as it is. -/
structure UsualLive (session : Session μ) : Prop where
  live : session.projection.disposed = false
  drained : session.projection.listeners.Drained
  usual : session.projection.options.bound = {}

/-- Nothing is under way either. -/
structure UsualIdle (master : Text) (session : Session μ) : Prop extends session.UsualLive where
  sound : session.SoundIdle master .none

theorem twoEnds_usualIdle : twoEnds.UsualIdle ['a', 'b', 'c', 'd', 'e'] where
  live := rfl
  drained := ⟨rfl, rfl⟩
  usual := rfl
  sound := twoEnds_wellFormed.soundIdle rfl rfl rfl rfl

theorem usualIdle_start {options : Options} (usual : options.bound = {}) (master : Text) (memory : μ)
    (allowance : Nat) : (start options memory allowance).UsualIdle master := by
  have wf : (start options memory allowance).projection.WellFormed master :=
    ⟨Layout.WellFormed.nil, rfl⟩
  exact ⟨⟨rfl, ⟨rfl, rfl⟩, usual⟩, wf.soundIdle rfl rfl rfl rfl⟩

def requests (notify : Notifier μ) (master : Master) (session : Session μ) :
    List Request → Session μ × List Reply
  | [] => (session, [])
  | request :: rest =>
    let (session, reply) := session.request notify master request
    let (session, replies) := session.requests notify master rest
    (session, reply :: replies)

variable {notify : Notifier μ} {master : Master} {session : Session μ}

theorem UsualLive.congr {after : Session μ} (usualLive : session.UsualLive)
    (disposed : after.projection.disposed = session.projection.disposed)
    (options : after.projection.options = session.projection.options)
    (listeners : after.projection.listeners = session.projection.listeners) : after.UsualLive where
  live := disposed.trans usualLive.live
  drained := listeners ▸ usualLive.drained
  usual := options ▸ usualLive.usual

theorem coupling_usualLive (informs : notify.Informs) :
    Coupling notify notify fun left right => left = right ∧ left.UsualLive :=
  .of_same
    (fun _ _ usualLive continues =>
      usualLive.congr continues.disposed continues.options continues.listeners)
    (fun _ _ usualLive => usualLive.congr rfl rfl rfl)
    (fun _ _ usualLive => usualLive.congr rfl rfl rfl)
    (fun master phase change session usualLive => by
      obtain ⟨same, -⟩ := informs master phase change session usualLive.drained
      exact ⟨rfl, usualLive.congr (by rw [same]) (by rw [same]) (by rw [same])⟩)

theorem UsualIdle.liveIdle {text : Text} (usualIdle : session.UsualIdle text) :
    session.LiveIdle text := by
  refine ⟨usualIdle.live, usualIdle.drained, ?_⟩
  rw [usualIdle.sound.forwards usualIdle.live]
  exact usualIdle.sound

theorem LiveIdle.refuses? {text : Text} (liveIdle : session.LiveIdle text) :
    session.projection.refuses? = none := by
  rw [liveIdle.sound.refuses?_eq, liveIdle.live]
  rfl

/-- A session in which only the fragments and the text became others, which go together. -/
theorem LiveIdle.reshaped {text : Text} {after : Session μ} (liveIdle : session.LiveIdle text)
    (reshapes : session.projection.Reshapes after.projection)
    (wf : after.projection.WellFormed text) : after.LiveIdle text := by
  obtain ⟨layout, _, same⟩ := reshapes
  have live : after.projection.disposed = false := same ▸ liveIdle.live
  have idle : after.projection.planned = none := same ▸ liveIdle.sound.idle
  exact ⟨live, same ▸ liveIdle.drained,
    wf.soundIdle live (same ▸ liveIdle.sound.whole) (same ▸ liveIdle.sound.free) idle⟩

theorem UsualIdle.refuses? {text : Text} (usualIdle : session.UsualIdle text) :
    session.projection.refuses? = none :=
  usualIdle.liveIdle.refuses?

theorem LiveIdle.closed? {text : Text} (liveIdle : session.LiveIdle text) :
    session.projection.closed? = none := by
  rw [liveIdle.sound.closed?_eq, liveIdle.live]
  rfl

theorem UsualIdle.closed? {text : Text} (usualIdle : session.UsualIdle text) :
    session.projection.closed? = none :=
  usualIdle.liveIdle.closed?

theorem UsualIdle.rested {text : Text} (usualIdle : session.UsualIdle text) :
    { session.projection with
      planned := none, listeners.queue := [], listeners.dispatching := false } =
      session.projection := by
  dsimp only
  rw [usualIdle.drained.ends, ← usualIdle.sound.idle]

theorem LiveIdle.changeRanges_eq {text : Text} (liveIdle : session.LiveIdle text) {region : Region}
    (inside : region.Inside master.length) (operation : Session μ → Outcome (Session μ)) :
    changeRanges notify master region session operation = breakOnFault (operation session) := by
  simp only [changeRanges, liveIdle.refuses?, Master.outside?_of_inside inside, Option.or_none,
    Outcome.guarded, conclude_of_idle liveIdle.sound.idle, Outcome.done_andThen]

theorem UsualIdle.changeRanges_eq {text : Text} (usualIdle : session.UsualIdle text) {region : Region}
    (inside : region.Inside master.length) (operation : Session μ → Outcome (Session μ)) :
    changeRanges notify master region session operation = breakOnFault (operation session) :=
  usualIdle.liveIdle.changeRanges_eq inside operation

theorem UsualIdle.request (informs : notify.Informs) (spares : notify.Spares master)
    (usualIdle : session.UsualIdle master.text) {request : Request}
    (ranges : request.Ranges) :
    (session.request notify master request).1.UsualIdle master.text := by
  obtain ⟨sound, -⟩ := request_spec ⟨Projection.upkeep_sound,
    spares.keeps Projection.casual_sound.audience,
    spares.keeps Projection.casual_soundIdle.audience⟩ (fun _ sound => sound)
    (fun _ sound => sound.toSound) Projection.casual_soundIdle usualIdle.sound request
  have usualLive : (session.request notify master request).1.UsualLive := by
    have pairing := (coupling_usualLive informs).pairing master
    rcases request_both pairing ranges rfl (conclude_both pairing ⟨rfl, usualIdle.toUsualLive⟩) with
      ⟨error, refused, -⟩ | ⟨⟨-, usualLive⟩, -⟩
    · rw [refused]
      exact usualIdle.toUsualLive
    · exact usualLive
  exact ⟨usualLive, sound⟩

theorem usualIdle_requests (informs : notify.Informs) (spares : notify.Spares master)
    (usualIdle : session.UsualIdle master.text)
    {requests : List Request} (ranges : ∀ request ∈ requests, request.Ranges) :
    (session.requests notify master requests).1.UsualIdle master.text := by
  induction requests generalizing session with
  | nil => exact usualIdle
  | cons request others ih =>
    obtain ⟨here, later⟩ := List.forall_mem_cons.mp ranges
    exact ih (usualIdle.request informs spares here) later

end Session

end TextProjection
