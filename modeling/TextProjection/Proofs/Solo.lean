import TextProjection.Proofs.Session.Edit
import TextProjection.Solo

/-! A projection alone with its master. It stays well-formed over any run of commands that go
through the projection, whatever its listeners request meanwhile.
-/

set_option autoImplicit false

namespace TextProjection.Solo

variable {μ : Type}

inductive Command.Heard : Command → Prop
  | request (request : Request) : Heard (.act (.request request))
  | edit (region : Region) (text : Text) : Heard (.edit region text)
  | replace (image : Region) (text : Text) : Heard (.replace image text)
  | set (text : Text) : Heard (.set text)

/-- The states of the runs from a first state, as long as the master text can be addressed. -/
inductive Reaches (audience : Audience μ) (first : Solo μ) : Solo μ → Prop
  | first (fits : first.master.length < Offset.bound) : Reaches audience first first
  | run {solo : Solo μ} (reaches : Reaches audience first solo) {command : Command}
      (heard : command.Heard) (fits : (solo.run audience command).1.master.length < Offset.bound) :
      Reaches audience first (solo.run audience command).1

inductive Ensues (audience : Audience μ) (first : Solo μ) : Solo μ → Prop
  | first : Ensues audience first first
  | run {solo : Solo μ} (ensues : Ensues audience first solo) (command : Command) :
      Ensues audience first (solo.run audience command).1

/-- The projection is well-formed for the master text, it works, and nothing is under way. -/
structure WellFormedIdle (solo : Solo μ) : Prop where
  wellFormed : solo.session.projection.WellFormed solo.master.text
  whole : solo.session.projection.broken = false
  free : solo.session.projection.pending = none
  idle : solo.session.projection.planned = none

def SoundIdle (solo : Solo μ) : Prop := solo.session.SoundIdle solo.master.text .none

theorem SoundIdle.wellFormedIdle {solo : Solo μ} (sound : solo.SoundIdle) : solo.WellFormedIdle :=
  ⟨sound.wellFormed, sound.whole, sound.free, sound.idle⟩

theorem start_soundIdle (text : Text) (options : Options) (memory : μ) (allowance : Nat) :
    (start text options memory allowance).SoundIdle where
  wellFormed := ⟨Layout.WellFormed.nil, rfl⟩
  whole := rfl
  free := rfl
  current := nofun
  cleared := nofun
  forwards _ := rfl
  idle := rfl

/-- One command keeps the projection sound and idle, and no fault is found. -/
theorem run_soundIdle {audience : Audience μ} (requests : audience.Requests) {solo : Solo μ}
    (sound : solo.SoundIdle) (fits : solo.master.length < Offset.bound) {command : Command}
    (heard : command.Heard) (fitsAfter : (solo.run audience command).1.master.length < Offset.bound) :
    (solo.run audience command).1.SoundIdle ∧
      ∀ error, (solo.run audience command).2 = .error error → error.isFault = false := by
  have respects (master : Master) (fits : master.length < Offset.bound) :
      (publish audience).Respects master := Session.publish_respects requests
  have replied {image : Region} {text : Text}
      (fitsAfter : (solo.session.replace (publish audience) solo.master image text).state.1.length <
        Offset.bound) :
      ((solo.session.replace (publish audience) solo.master image text).map ofPair).reply.1.SoundIdle ∧
        ∀ error, ((solo.session.replace (publish audience) solo.master image text).map
          ofPair).reply.2 = .error error → error.isFault = false := by
    -- A call may be refused, and the projection is sound and idle then too.
    have ends : ((solo.session.replace (publish audience) solo.master image text).map ofPair).Ends
        SoundIdle SoundIdle :=
      (Session.replace_soundIdle fits respects sound fitsAfter).map (fun _ sound => sound)
        fun _ sound => sound
    exact ⟨ends.state, fun _ => ends.reply⟩
  cases heard with
  | request request =>
    have respected := respects solo.master fits
    exact Session.request_spec (respected.maintains .none) (fun _ sound => sound)
      (fun _ sound => sound.toSound) Projection.casual_soundIdle sound request
  | edit region text =>
    have ends : ((solo.session.editMaster (publish audience) solo.master region text).map
        ofPair).Ends SoundIdle SoundIdle :=
      (Session.editMaster_soundIdle respects fits sound fitsAfter).map (fun _ made => made.2.2)
        fun edited kept => by
          -- Where the edit fails, the text is still the old one.
          change edited.2.SoundIdle edited.1.text .none
          rw [kept.1]
          exact kept.2.2
    exact ⟨ends.state, fun _ => ends.reply⟩
  | replace image text => exact replied fitsAfter
  | set text => exact replied fitsAfter

theorem Reaches.soundIdle {audience : Audience μ} (requests : audience.Requests) {first solo : Solo μ}
    (reaches : Reaches audience first solo) (sound : first.SoundIdle) :
    solo.SoundIdle ∧ solo.master.length < Offset.bound := by
  induction reaches with
  | first fits => exact ⟨sound, fits⟩
  | run _ heard fitsAfter ih =>
    obtain ⟨sound, fits⟩ := ih
    exact ⟨(run_soundIdle requests sound fits heard fitsAfter).1, fitsAfter⟩

/-- After every command of every run, the projection is well-formed and nothing is under way, and no
command ever finds a fault. -/
theorem wellFormedIdle_of_reaches {audience : Audience μ} (requests : audience.Requests) {text : Text}
    {options : Options} {memory : μ} {allowance : Nat} {solo : Solo μ}
    (reaches : Reaches audience (start text options memory allowance) solo) {command : Command}
    (heard : command.Heard) (fits : (solo.run audience command).1.master.length < Offset.bound) :
    (solo.run audience command).1.WellFormedIdle ∧
      ∀ error, (solo.run audience command).2 = .error error → error.isFault = false := by
  obtain ⟨sound, before⟩ := reaches.soundIdle requests (start_soundIdle text options memory allowance)
  obtain ⟨after, replies⟩ := run_soundIdle requests sound before heard fits
  exact ⟨after.wellFormedIdle, replies⟩

/-- The listener adds a region while the first fragment is being announced. -/
theorem wellFormedIdle_of_reaches_once :
    let audience := Audience.once (.add ⟨2, 1⟩)
    let solo := ((start ['a', 'b', 'c', 'd'] {} false 1).run audience (.act (.request .subscribe))).1
    let solo := (solo.run audience (.act (.request (.add ⟨0, 1⟩)))).1
    (solo.run audience (.edit ⟨0, 1⟩ ['x', 'y'])).1.WellFormedIdle :=
  (wellFormedIdle_of_reaches (Audience.once_requests _)
    (.run (.run (.first (by decide)) (.request _) (by decide)) (.request _) (by decide))
    (.edit ⟨0, 1⟩ ['x', 'y']) (by decide)).1

end TextProjection.Solo
