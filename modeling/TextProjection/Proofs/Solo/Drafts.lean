import TextProjection.Proofs.Session.Pending
import TextProjection.Proofs.Solo.Told

/-! Master edits that are drafted first. They may be announced in any order and any number of times,
and committed or given up. The projection stays well-formed over all of it, and its listeners are told
only of edits that are made.
-/

set_option autoImplicit false

namespace TextProjection

variable {μ : Type}

/-- A projection with its master, and all edits that were prepared without being made at once. -/
structure Drafting (μ : Type) extends Solo μ where
  drafts : List Edit := []

namespace Solo

inductive Command.Edits : Command → Prop
  | edit (region : Region) (text : Text) : Edits (.edit region text)
  | replace (image : Region) (text : Text) : Edits (.replace image text)
  | set (text : Text) : Edits (.set text)

end Solo

namespace Drafting

open Solo (Command trimming trimming_forbears)

inductive Call where
  | request (request : Request)
  | through (command : Command)
  | draft (region : Region) (text : Text)
  | announce (edit : Edit)
  /-- Commit an edit and confirm it right afterwards. An edit of which the projection hears only then was
  drafted and not announced. -/
  | settle (edit : Edit)
  deriving DecidableEq, Repr

def take (audience : Audience μ) (drafting : Drafting μ) : Call → Drafting μ
  | .request request =>
    { drafting with toSolo := (drafting.run audience (.act (.request request))).1 }
  | .through command => { drafting with toSolo := (drafting.run audience command).1 }
  | .draft region text =>
    match drafting.run audience (.prepare region text) with
    | (solo, .ok (.prepared edit)) => ⟨solo, edit :: drafting.drafts⟩
    | (solo, _) => { drafting with toSolo := solo }
  | .announce edit => { drafting with toSolo := (drafting.run audience (.act (.anticipate edit))).1 }
  | .settle edit =>
    match drafting.run audience (.commit edit) with
    | (solo, .ok _) => { drafting with toSolo := (solo.run audience (.act (.confirm edit))).1 }
    | (solo, .error _) => { drafting with toSolo := solo }

/-- The projection is not given up, only edits that were drafted are announced, and only such edits are
settled as fit the text. -/
inductive Call.Allowed (drafting : Drafting μ) : Call → Prop
  | request {request : Request} (keeps : request ≠ .dispose) : Allowed drafting (.request request)
  | through {command : Command} (edits : command.Edits) : Allowed drafting (.through command)
  | draft (region : Region) (text : Text) : Allowed drafting (.draft region text)
  | announce {edit : Edit} (drafted : edit ∈ drafting.drafts) : Allowed drafting (.announce edit)
  | settle {edit : Edit} (drafted : edit ∈ drafting.drafts)
      (inside : edit.region.Inside drafting.master.length) : Allowed drafting (.settle edit)

inductive Reaches (audience : Audience μ) (first : Drafting μ) : Drafting μ → Prop
  | first (fits : first.master.length < Offset.bound) : Reaches audience first first
  | take {drafting : Drafting μ} (reaches : Reaches audience first drafting) {call : Call}
      (allowed : call.Allowed drafting)
      (fits : (drafting.take audience call).master.length < Offset.bound) :
      Reaches audience first (drafting.take audience call)

inductive Call.Brings : Call → Change → Prop
  | ranges {call : Call} {change : Change} (kind : change.kind = .projection) : Brings call change
  | through (command : Command) (change : Change) : Brings (.through command) change
  | settle {edit : Edit} {change : Change} (same : change.edit = some edit) :
      Brings (.settle edit) change

theorem Call.Brings.settles {call : Call} {change : Change} (brings : call.Brings change)
    (apart : ∀ command, call ≠ .through command) (content : change.kind = .content) :
    ∃ edit, call = .settle edit ∧ change.edit = some edit := by
  cases brings with
  | ranges kind => cases content.symm.trans kind
  | through command => exact absurd rfl (apart command)
  | settle same => exact ⟨_, rfl, same⟩

/-- The drafts have different identities, all of them given by the master, and none reaches beyond where
a master text could. -/
structure Kept (drafting : Drafting μ) : Prop where
  distinct : (drafting.drafts.map Edit.id).Nodup
  given : ∀ edit ∈ drafting.drafts, edit.id < drafting.master.nextEdit
  words : ∀ edit ∈ drafting.drafts, edit.region.stop < Offset.bound

/-- A well-formed projection in use, with nothing under way. -/
structure Fresh (drafting : Drafting μ) : Prop extends drafting.Kept where
  wellFormed : drafting.session.projection.WellFormed drafting.master.text
  live : drafting.session.projection.disposed = false
  whole : drafting.session.projection.broken = false
  free : drafting.session.projection.pending = none
  idle : drafting.session.projection.planned = none
  still : drafting.session.projection.outgoing = .none
  drained : drafting.session.projection.listeners.Drained
  numbered : drafting.session.projection.listeners.Numbered

def watched (text : Text) (memory : μ) (allowance : Nat) : Drafting μ where
  master := { text }
  session := {
    projection := { listeners := { ids := [0], nextId := 1 } }
    memory := memory
    allowance := allowance }

theorem watched_fresh (text : Text) (memory : μ) (allowance : Nat) :
    (watched text memory allowance).Fresh where
  distinct := .nil
  given := nofun
  words := nofun
  wellFormed := ⟨Layout.WellFormed.nil, rfl⟩
  live := rfl
  whole := rfl
  free := rfl
  idle := rfl
  still := rfl
  drained := ⟨rfl, rfl⟩
  numbered := ⟨List.nodup_singleton 0, fun _ member => List.mem_singleton.mp member ▸ Nat.zero_lt_one⟩

/-- What the calls keep. An edit that was announced may still be pending. -/
structure Invariant (drafting : Drafting μ) : Prop extends drafting.Kept where
  pending : ∀ pending, drafting.session.projection.pending = some pending →
    pending.edit ∈ drafting.drafts
  soundPending : drafting.session.projection.SoundPending drafting.master.text
  live : drafting.session.projection.disposed = false
  fits : drafting.master.length < Offset.bound
  drained : drafting.session.projection.listeners.Drained
  numbered : drafting.session.projection.listeners.Numbered

variable {audience : Audience μ} {drafting : Drafting μ} {call : Call}

theorem Fresh.invariant (fresh : drafting.Fresh) (fits : drafting.master.length < Offset.bound) :
    drafting.Invariant where
  toKept := fresh.toKept
  pending _ found := by cases fresh.free.symm.trans found
  soundPending := (fresh.still ▸ fresh.wellFormed.soundIdle fresh.live fresh.whole fresh.free fresh.idle :
    drafting.session.projection.SoundIdle drafting.master.text .none).soundPending
  live := fresh.live
  fits := fits
  drained := fresh.drained
  numbered := fresh.numbered

theorem Kept.later (kept : drafting.Kept) {solo : Solo μ}
    (later : drafting.master.nextEdit ≤ solo.master.nextEdit) :
    Kept { drafting with toSolo := solo } where
  distinct := kept.distinct
  given edit member := Nat.lt_of_lt_of_le (kept.given edit member) later
  words := kept.words

theorem Kept.draft (kept : drafting.Kept) (fits : drafting.master.length < Offset.bound)
    {region : Region} (inside : region.Inside drafting.master.length) (text : Text) :
    Kept ⟨⟨{ drafting.master with nextEdit := drafting.master.nextEdit + 1 }, drafting.session⟩,
      ⟨drafting.master.nextEdit, region, text⟩ :: drafting.drafts⟩ where
  distinct := by
    apply List.nodup_cons.mpr
    constructor
    · intro known
      obtain ⟨edit, member, same⟩ := List.mem_map.mp known
      exact Nat.ne_of_lt (kept.given edit member) same
    · exact kept.distinct
  given := by
    intro edit member
    rcases List.mem_cons.mp member with rfl | member
    · exact Nat.lt_succ_self _
    · exact Nat.lt_succ_of_lt (kept.given edit member)
  words := by
    intro edit member
    rcases List.mem_cons.mp member with rfl | member
    · exact Region.stop_lt_of_inside inside fits
    · exact kept.words edit member

theorem Invariant.eq_of_id (invariant : drafting.Invariant) {edit : Edit}
    (drafted : edit ∈ drafting.drafts) (pending : Pending)
    (found : drafting.session.projection.pending = some pending)
    (same : pending.edit.id = edit.id) : pending.edit = edit :=
  List.inj_on_of_nodup_map invariant.distinct (invariant.pending pending found) drafted same

/-! One call -/

def regime (audience : Audience μ) (call : Call) : Regime :=
  Session.hearing audience call.Brings fun _ => .ranges

/-- A call keeps the invariant, and it is met step by step. -/
structure Takes (audience : Audience μ) (call : Call) (before after : Drafting μ) : Prop where
  invariant : after.Invariant
  leads : Moment.Leads call.Brings audience.telling before.session.moment after.session.moment

theorem Invariant.takes (invariant : drafting.Invariant) {after : Drafting μ} (kept : after.Kept)
    (pending : ∀ pending, after.session.projection.pending = some pending →
      pending.edit ∈ after.drafts)
    (soundPending : after.session.projection.SoundPending after.master.text)
    (settles : after.session.Settles (regime audience call) drafting.session.moment)
    (fits : after.master.length < Offset.bound) : Takes audience call drafting after := by
  have leads : Moment.Leads call.Brings audience.telling drafting.session.moment after.session.moment :=
    settles.leads_none
  exact ⟨{ kept with
    pending := pending
    soundPending := soundPending
    live := leads.disposed_eq.trans invariant.live
    fits := fits
    drained := settles.between
    numbered := leads.numbered invariant.numbered }, leads⟩

theorem Invariant.settles (audience : Audience μ) (call : Call) (invariant : drafting.Invariant) :
    drafting.session.Settles (regime audience call) drafting.session.moment :=
  .of_leads .refl invariant.drained invariant.soundPending.sound.idle

theorem Invariant.permits (invariant : drafting.Invariant) (changes : Change → Prop) :
    drafting.session.moment.Permits changes drafting.session.journal where
  queue notification member := by
    have queue : drafting.session.moment.session.projection.listeners.queue = [] := invariant.drained.1
    rw [queue] at member
    cases member
  opened _ found := nomatch found
  current _ _ found := nomatch found
  told := ⟨[], (List.append_nil _).symm, fun _ member => nomatch member⟩

theorem Invariant.takes_edited (invariant : drafting.Invariant) {edited : Master × Session μ}
    (made : drafting.session.Edited edited) (later : drafting.master.nextEdit ≤ edited.1.nextEdit)
    (settles : edited.2.Settles (regime audience call) drafting.session.moment)
    (fits : edited.1.length < Offset.bound) :
    Takes audience call drafting { drafting with toSolo := Solo.ofPair edited } := by
  apply invariant.takes (invariant.later later) _ made.soundPending settles fits
  intro pending found
  rcases made.pending with none | same
  · cases none.symm.trans found
  · exact invariant.pending pending (same.symm.trans found)

section
variable (forbears : audience.Forbears) (invariant : drafting.Invariant)

include forbears invariant in
theorem through_takes {command : Command} (edits : command.Edits)
    (fits : (drafting.take audience (.through command)).master.length < Offset.bound) :
    Takes audience (.through command) drafting (drafting.take audience (.through command)) := by
  have respects (master : Master) (fits : master.length < Offset.bound) :
      (publish audience).Respects master := Session.publish_respects forbears.requests
  have paces : (publish audience).Paces (regime audience (.through command)) :=
    Session.publish_paces forbears _ _
  have settles := invariant.settles audience (.through command)
  have replaced {image : Region} {text : Text} (same : drafting.take audience (.through command) =
        { drafting with
          toSolo := Solo.ofPair
            (drafting.session.replace (publish audience) drafting.master image text).state }) :
      Takes audience (.through command) drafting (drafting.take audience (.through command)) := by
    rw [same] at fits ⊢
    exact invariant.takes_edited (Session.replace_edited invariant.fits respects
      invariant.soundPending fits)
      (Session.replace_nextEdit ..)
      (Session.replace_settles paces (.through command) drafting.master image text settles) fits
  cases edits with
  | edit region text =>
    have edited := Session.editMaster_edited invariant.fits respects invariant.soundPending
      invariant.live fits
    exact invariant.takes_edited edited (Session.editMaster_nextEdit ..)
      (Session.editMaster_settles paces (.through _) drafting.master region text settles) fits
  | replace image text => exact replaced rfl
  | set text => exact replaced rfl

include forbears invariant in
theorem request_takes {request : Request} (keeps : request ≠ .dispose) :
    Takes audience (.request request) drafting (drafting.take audience (.request request)) := by
  have respects : (publish audience).Respects drafting.master :=
    Session.publish_respects forbears.requests
  obtain ⟨stems, idles⟩ := Session.request_stems (Session.publish_paces forbears _ _)
    drafting.master (invariant.settles audience (.request request)).toStems keeps
  obtain ⟨soundPending, same⟩ := Session.request_soundPending respects invariant.soundPending request
    (stems.live invariant.live)
  exact invariant.takes (invariant.later (Nat.le_refl _))
    (fun pending found => invariant.pending pending (same.symm.trans found)) soundPending
    ⟨stems, idles invariant.soundPending.sound.idle⟩ invariant.fits

include invariant in
theorem draft_takes (region : Region) (text : Text) :
    Takes audience (.draft region text) drafting (drafting.take audience (.draft region text)) := by
  by_cases inside : region.Inside drafting.master.length
  · have drafted : drafting.take audience (.draft region text) =
        ⟨⟨{ drafting.master with nextEdit := drafting.master.nextEdit + 1 }, drafting.session⟩,
          ⟨drafting.master.nextEdit, region, text⟩ :: drafting.drafts⟩ := by
      simp only [take, Solo.run, Solo.runBy, Master.prepare_eq inside]
    rw [drafted]
    exact invariant.takes (invariant.draft invariant.fits inside text)
      (fun pending found => List.mem_cons_of_mem _ (invariant.pending pending found))
      invariant.soundPending
      (invariant.settles audience _) invariant.fits
  · have refused : drafting.take audience (.draft region text) = drafting := by
      simp only [take, Solo.run, Solo.runBy, Master.prepare_eq_error inside]
    rw [refused]
    exact invariant.takes invariant.toKept invariant.pending invariant.soundPending
      (invariant.settles audience _) invariant.fits

include forbears invariant in
theorem announce_takes {edit : Edit} (drafted : edit ∈ drafting.drafts) :
    Takes audience (.announce edit) drafting (drafting.take audience (.announce edit)) := by
  have respects : (publish audience).Respects drafting.master :=
    Session.publish_respects forbears.requests
  have word := invariant.words edit drafted
  have settles := Session.anticipate_settles (Session.publish_paces forbears _ _)
    drafting.master edit (invariant.settles audience (.announce edit))
  have heard := (Session.anticipate_hears invariant.fits respects word invariant.soundPending
    invariant.live).state
  exact invariant.takes (invariant.later (Nat.le_refl _))
    (fun pending found => heard.pending pending found ▸ drafted) heard.soundPending settles invariant.fits

include forbears invariant in
theorem settle_takes {edit : Edit} (drafted : edit ∈ drafting.drafts)
    (inside : edit.region.Inside drafting.master.length)
    (fits : (drafting.take audience (.settle edit)).master.length < Offset.bound) :
    Takes audience (.settle edit) drafting (drafting.take audience (.settle edit)) ∧
      (drafting.take audience (.settle edit)).session.projection.pending = none := by
  generalize committed : (⟨edit.result drafting.master.text, drafting.master.version + 1,
    drafting.master.nextEdit⟩ : Master) = master
  have settled : drafting.take audience (.settle edit) = { drafting with
      toSolo := ⟨master, (drafting.session.confirm (publish audience) master edit).state⟩ } := by
    simp only [take, Solo.run, Solo.runBy, Master.commit_eq inside]
    rw [← committed]
    rfl
  have result : master.text = edit.result drafting.master.text := by rw [← committed]
  have later : drafting.master.nextEdit ≤ master.nextEdit := by rw [← committed]
  rw [settled] at fits ⊢
  have respects : (publish audience).Respects master :=
    Session.publish_respects forbears.requests
  have known := invariant.eq_of_id drafted
  have rest := (Session.confirm_of_soundPending respects inside result invariant.soundPending
    invariant.live known).success.2
  have permitted (pending : Pending) (change : Change)
      (found : drafting.session.projection.pending = some pending) (same : pending.edit.id = edit.id)
      (made : pending.change = some change) : (Call.settle edit).Brings change := by
    obtain rfl := known pending found same
    have foreseen := invariant.soundPending.foreseen pending found inside
    rw [made] at foreseen
    exact .settle foreseen.2.2.2.2
  have settles := Session.confirm_settles (Session.publish_paces forbears _ _) master
    (fun _ => .settle) permitted (invariant.settles audience (.settle edit))
  exact ⟨invariant.takes (invariant.later later)
    (fun pending found => by cases rest.free.symm.trans found) rest.soundPending settles fits, rest.free⟩

include forbears invariant in
theorem take_takes (allowed : call.Allowed drafting)
    (fits : (drafting.take audience call).master.length < Offset.bound) :
    Takes audience call drafting (drafting.take audience call) := by
  cases allowed with
  | request keeps => exact request_takes forbears invariant keeps
  | through edits => exact through_takes forbears invariant edits fits
  | draft region text => exact draft_takes invariant region text
  | announce drafted => exact announce_takes forbears invariant drafted
  | settle drafted inside => exact (settle_takes forbears invariant drafted inside fits).1

end

/-! Runs -/

variable {first : Drafting μ}

theorem Reaches.fits (reaches : Reaches audience first drafting) :
    first.master.length < Offset.bound := by
  induction reaches with
  | first fits => exact fits
  | take _ _ _ ih => exact ih

theorem Reaches.invariant (forbears : audience.Forbears) (invariant : first.Invariant)
    (reaches : Reaches audience first drafting) : drafting.Invariant := by
  induction reaches with
  | first _ => exact invariant
  | take _ allowed fits ih => exact (take_takes forbears ih allowed fits).invariant

/-- After every call of every run the projection is well-formed and works. Listeners are told of edits
only while one is settled, and only of that one. When it is, the ranges can be changed again. -/
theorem settled_of_reaches (forbears : audience.Forbears) (fresh : first.Fresh)
    (reaches : Reaches audience first drafting) (allowed : call.Allowed drafting)
    (apart : ∀ command, call ≠ .through command)
    (fits : (drafting.take audience call).master.length < Offset.bound) :
    let after := drafting.take audience call
    after.session.projection.WellFormed after.master.text ∧
      after.session.projection.broken = false ∧
      (∃ news, after.session.journal = drafting.session.journal ++ news ∧
        ∀ delivery, .delivered delivery ∈ news → delivery.notification.change.kind = .content →
          ∃ edit, call = .settle edit ∧ delivery.notification.change.edit = some edit) ∧
      ∀ edit, call = .settle edit →
        after.session.projection.pending = none ∧ after.session.projection.refuses? = none := by
  intro after
  have invariant := reaches.invariant forbears (fresh.invariant reaches.fits)
  obtain ⟨invariantAfter, leads⟩ := take_takes forbears invariant allowed fits
  refine ⟨invariantAfter.soundPending.wellFormed, invariantAfter.soundPending.sound.whole, ?_,
    fun edit settles => ?_⟩
  · -- All that is told is of the call's own making.
    obtain ⟨-, -, -, news, journal, told⟩ := leads.permits (invariant.permits call.Brings)
    exact ⟨news, journal, fun delivery member => (told delivery member).settles apart⟩
  · subst settles
    cases allowed with
    | settle drafted inside =>
      have free := (settle_takes forbears invariant drafted inside fits).2
      refine ⟨free, ?_⟩
      rw [((invariantAfter.soundPending).soundIdle free).refuses?_eq, if_neg]
      simp [invariantAfter.live]

def abandoned : Drafting Bool :=
  watched ['a', 'b', 'c', 'd'] false 1
    |>.take trimming (.request (.add ⟨0, 3⟩))
    |>.take trimming (.draft ⟨0, 4⟩ ['x'])
    |>.take trimming (.draft ⟨2, 2⟩ ['y'])
    |>.take trimming (.announce ⟨1, ⟨2, 2⟩, ['y']⟩)

/-- The first draft is settled instead, after which the second one does not fit any more. Announcing it
once again does no harm. -/
theorem settled_of_reaches_abandoned :
    (abandoned.take trimming (.settle ⟨0, ⟨0, 4⟩, ['x']⟩)).session.projection.refuses? = none ∧
      ((abandoned.take trimming (.settle ⟨0, ⟨0, 4⟩, ['x']⟩)).take trimming
        (.announce ⟨1, ⟨2, 2⟩, ['y']⟩)).session.projection.broken = false := by
  have reaches : Reaches trimming (watched ['a', 'b', 'c', 'd'] false 1) abandoned := by
    apply Reaches.take _ (.announce (by decide +kernel)) (by decide +kernel)
    apply Reaches.take _ (.draft _ _) (by decide +kernel)
    apply Reaches.take _ (.draft _ _) (by decide +kernel)
    apply Reaches.take _ (.request (by decide)) (by decide +kernel)
    exact .first (by decide)
  have fitting : Call.Allowed abandoned (.settle ⟨0, ⟨0, 4⟩, ['x']⟩) :=
    .settle (by decide +kernel) (by decide +kernel)
  have fits : (abandoned.take trimming (.settle ⟨0, ⟨0, 4⟩, ['x']⟩)).master.length < Offset.bound := by
    decide +kernel
  have stale : Call.Allowed (abandoned.take trimming (.settle ⟨0, ⟨0, 4⟩, ['x']⟩))
      (.announce ⟨1, ⟨2, 2⟩, ['y']⟩) := .announce (by decide +kernel)
  have settles := settled_of_reaches trimming_forbears (watched_fresh ..) reaches fitting nofun fits
  have announces := settled_of_reaches trimming_forbears (watched_fresh ..)
    (reaches.take fitting fits) stale nofun (by decide +kernel)
  exact ⟨(settles.2.2.2 _ rfl).2, announces.2.1⟩

end Drafting

end TextProjection
