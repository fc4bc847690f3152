import TextProjection.Proofs.Solo.Refusal
import TextProjection.Proofs.Workspace
import TextProjection.Proofs.Workspace.Alone

/-! What a workspace refuses to do changes nothing in it, just as with a projection that is alone with
its master.
-/

set_option autoImplicit false

namespace TextProjection

variable {μ : Type}

namespace Workspace

variable {audience : Audience μ} {workspace : Workspace μ} {id : Nat} {session : Session μ}

def Command.addressee? : Command μ → Option Nat
  | .request id _ => some id
  | .replace id _ _ => some id
  | .set id _ => some id
  | _ => none

theorem modify_same (ascending : workspace.Ascending) (found : workspace.session? id = some session) :
    (workspace.modify id fun _ => session) = workspace := by
  have distinct : (workspace.sessions.map (·.1)).Nodup :=
    ((List.pairwise_append.mp ascending).1).imp Nat.ne_of_lt
  have kept : (workspace.sessions.map fun entry =>
      (entry.1, if entry.1 = id then session else entry.2)) = workspace.sessions := by
    calc
      _ = workspace.sessions.map (fun entry => entry) := by
        apply List.map_congr_left
        intro entry member
        by_cases same : entry.1 = id
        · have equal := List.inj_on_of_nodup_map distinct (member_of_session? found) member same.symm
          simp [← equal]
        · simp [same]
      _ = workspace.sessions := List.map_id' _
  unfold modify
  simp only [found, Option.elim_some, List.drop_length, List.map_nil, List.append_nil]
  exact congrArg (fun sessions => { workspace with sessions }) kept

theorem request_reply (found : workspace.session? id = some session) (request : Request) :
    (workspace.request audience id request).2 =
      (session.request (publish audience) workspace.master request).2 := by
  simp only [Workspace.request, found]
  split <;> rfl

theorem request_same (ascending : workspace.Ascending) (found : workspace.session? id = some session)
    {request : Request} (keeps : request ≠ .dispose)
    (same : (session.request (publish audience) workspace.master request).1 = session) :
    (workspace.request audience id request).1 = workspace := by
  simp only [Workspace.request, found, if_neg keeps, same]
  exact modify_same ascending found

theorem tell_accepted {operation : Session μ → Outcome (Session μ)}
    (hears : ∀ entry ∈ workspace.sessions, (operation entry.2).Accepted) :
    (workspace.tell operation).Accepted := by
  intro error failed
  obtain ⟨⟨id, session, outcome⟩, member, heard⟩ := List.exists_of_findSome?_eq_some failed
  obtain ⟨⟨other, before⟩, found, same⟩ := List.mem_map.mp member
  obtain ⟨rfl, rfl, rfl⟩ := same
  simp only at heard
  split at heard
  · cases heard
  · exact hears _ found error heard

theorem commit_accepted {edit : Edit} (inside : edit.region.Inside workspace.master.length)
    (hears : ∀ entry ∈ workspace.sessions,
      (Session.anticipate (publish audience) workspace.master edit entry.2).Accepted) :
    (workspace.commit audience edit).Accepted := by
  have announced := tell_accepted hears
  have confirmed (master : Master) (workspace : Workspace μ) :
      (workspace.tell (Session.confirm (publish audience) master edit)).Accepted :=
    tell_accepted fun entry _ =>
      (Session.confirm_faulted (publish audience) master entry.2 edit).accepted
  simp only [commit, Master.commit_eq inside]
  intro error failed
  rcases Option.or_eq_some_iff.mp failed with refused | ⟨-, refused⟩
  · exact announced error refused
  · exact confirmed _ _ error refused

theorem editMaster_accepted {region : Region} {text : Text}
    (inside : region.Inside workspace.master.length)
    (hears : ∀ master : Master, master.text = workspace.master.text →
      ∀ entry ∈ workspace.sessions, (Session.anticipate (publish audience) master
        ⟨workspace.master.nextEdit, region, text⟩ entry.2).Accepted) :
    (workspace.editMaster audience region text).Accepted := by
  have insideEdit : (Edit.mk workspace.master.nextEdit region text).region.Inside
      { workspace.master with nextEdit := workspace.master.nextEdit + 1 }.length := inside
  simp only [editMaster, Master.prepare_eq inside]
  exact commit_accepted insideEdit (hears _ rfl)

section
variable (requests : audience.Requests) (fits : workspace.master.length < Offset.bound)
  (sound : workspace.SoundIdle fun _ => .none)

include requests

theorem maintains (master : Master) (same : master.text = workspace.master.text) :
    (publish audience).Maintains master (Projection.Sound workspace.master.text .none)
      (Projection.SoundIdle workspace.master.text .none) := by
  have respects : (publish audience).Respects master := Session.publish_respects requests
  have kept := respects.maintains .none
  rwa [same] at kept

include sound

theorem anticipate_accepted (master : Master) (same : master.text = workspace.master.text)
    {edit : Edit} (inside : edit.region.Inside master.length) {entry : Nat × Session μ}
    (member : entry ∈ workspace.sessions) :
    (Session.anticipate (publish audience) master edit entry.2).Accepted := by
  have here := sound entry member
  exact Session.anticipate_accepted (maintains requests master same) inside here.idle
    fun usable _ => here.between.usable usable

include fits in
theorem replace_intact (image : Region) (text : Text) :
    (workspace.replace audience id image text).Intact workspace := by
  unfold Workspace.replace
  cases found : workspace.session? id with
  | none => exact .fail workspace _
  | some session =>
    have before := sound _ (member_of_session? found)
    simp only
    split
    · exact .fail workspace _
    · next origin forwarding begins =>
      obtain ⟨opened, within, rfl⟩ := Projection.beginForwarding_ok begins
      obtain ⟨origin', begins', originInside, -⟩ :=
        before.wellFormed.exists_beginForwarding fits opened within text
      obtain rfl : origin = origin' := congrArg Prod.fst (Except.ok.inj (begins.symm.trans begins'))
      apply Outcome.Accepted.intact
      generalize opens : workspace.modify id _ = opening
      have same : opening.master = workspace.master := by rw [← opens]; rfl
      have edited : (opening.editMaster audience origin text).Accepted := by
        apply editMaster_accepted (by rwa [same])
        intro master prepared entry member
        rw [same] at prepared
        have within' : origin.Inside master.length := by rwa [Master.length, prepared]
        rcases modify_cases (opens.symm ▸ member) with ⟨-, found'⟩ | ⟨other, -, rfl⟩
        · exact anticipate_accepted requests sound master prepared within' found'
        · -- The one that forwards the edit knows what it will do.
          exact Session.anticipate_accepted (maintains requests master prepared) within'
            before.idle fun _ still => by cases still
      exact edited

theorem request_of_refusal (ascending : workspace.Ascending) {request : Request} {error : Error}
    (replied : (workspace.request audience id request).2 = .error error)
    (refusal : error.isRefusal = true) : (workspace.request audience id request).1 = workspace := by
  cases found : workspace.session? id with
  | none => simp only [Workspace.request, found]
  | some session =>
    rw [request_reply found] at replied
    have keeps : request ≠ .dispose := by
      rintro rfl
      cases replied
    have between := (sound _ (member_of_session? found)).between
    apply request_same ascending found keeps
    exact Session.request_intact (maintains requests workspace.master rfl) between request
      replied refusal

theorem createOf_of_refusal (ascending : workspace.Ascending) {region : Region} {options : Options}
    {memory : μ} {allowance : Nat} {error : Error}
    (replied : (workspace.createOf audience region options memory allowance).2 = .error error)
    (refusal : error.isRefusal = true) :
    (workspace.createOf audience region options memory allowance).1 = workspace := by
  unfold createOf at replied ⊢
  cases outside : workspace.master.outside? region with
  | some found => rfl
  | none =>
    -- Nothing can be wrong with the region any more once the projection was created.
    have inside : region.Inside workspace.master.length := Region.outside?_eq_none_iff.mp outside
    have fresh : (workspace.create options memory allowance).2.session? workspace.nextId =
        some (.start options memory allowance) :=
      (session?_create ascending.numbered.absent options memory allowance).trans (if_pos rfl)
    have between := (create_soundIdle sound options memory allowance _ (member_of_session? fresh)).between
    have accepted := Session.reset_accepted (maintains requests workspace.master rfl) between rfl
      inside
    have answered : (Workspace.request audience _ _ _).2 = _ := request_reply fresh (.reset region)
    simp only [outside] at replied
    generalize asked : Workspace.request audience (workspace.create options memory allowance).2
      (workspace.create options memory allowance).1 (.reset region) = outcome at replied
    obtain ⟨after, reply⟩ := outcome
    cases reply with
    | ok answer => cases replied
    | error found =>
      cases replied
      have failed := Outcome.error_of_reply (answered.symm.trans (congrArg Prod.snd asked))
      exact absurd refusal (by simp [accepted error failed])

include fits in
/-- A command that is refused changes nothing. -/
theorem run_of_refusal (ascending : workspace.Ascending) {command : Command μ} {error : Error}
    (replied : (workspace.run audience command).2 = .error error) (refusal : error.isRefusal = true) :
    (workspace.run audience command).1 = workspace := by
  have edited (region : Region) (text : Text) :
      (workspace.editMaster audience region text).Intact workspace := by
    by_cases inside : region.Inside workspace.master.length
    · apply Outcome.Accepted.intact
      apply editMaster_accepted inside
      intro master same entry member
      exact anticipate_accepted requests sound master same (by rwa [Master.length, same]) member
    · simp only [editMaster, Master.prepare_eq_error inside]
      exact .fail workspace _
  have refused {outcome : Outcome (Workspace μ)} (intact : outcome.Intact workspace)
      (replied : outcome.reply.2 = .error error) : outcome.reply.1 = workspace :=
    intact error (Outcome.error_of_reply replied) refusal
  cases command with
  | create options memory allowance => cases replied
  | createOf region options memory allowance =>
    exact createOf_of_refusal requests sound ascending replied refusal
  | request id request => exact request_of_refusal requests sound ascending replied refusal
  | replace id image text => exact refused (replace_intact requests fits sound image text) replied
  | set id text =>
    apply refused _ replied
    unfold set
    split
    · exact .fail workspace _
    · exact replace_intact requests fits sound _ text
  | editMaster region text => exact refused (edited region text) replied
  | setMaster text => exact refused (edited _ text) replied

end

theorem run_of_disposed (ascending : workspace.Ascending) {command : Command μ}
    (addressed : command.addressee? = some id) (found : workspace.session? id = some session)
    (disposed : session.projection.disposed = true)
    (replied : (workspace.run audience command).2 = .error .disposed) :
    (workspace.run audience command).1 = workspace := by
  have closed := Projection.closed?_of_disposed disposed
  have refused (image : Region) (text : Text) :
      (workspace.replace audience id image text).state = workspace := by
    simp only [Workspace.replace, found, Projection.beginForwarding, Projection.refuses?, closed,
      Option.some_or, Outcome.fail]
  cases command with
  | create _ _ _ | createOf _ _ _ _ | editMaster _ _ | setMaster _ => cases addressed
  | request other request =>
    obtain rfl : other = id := Option.some.inj addressed
    simp only [run] at replied ⊢
    rw [request_reply found] at replied
    by_cases ranges : request.Ranges
    · apply request_same ascending found
      · rintro rfl
        exact ranges
      · exact congrArg Prod.fst (Session.request_of_closed closed ranges)
    · -- Requests for settings and listeners are always granted.
      cases request <;> first | exact absurd trivial ranges | cases replied
  | replace other image text =>
    obtain rfl : other = id := Option.some.inj addressed
    exact refused image text
  | set other text =>
    obtain rfl : other = id := Option.some.inj addressed
    simp only [run, set, found]
    exact refused _ text

/-- The command was refused: for its arguments, for its moment, or because its projection had been
disposed before. -/
def Refuses (workspace : Workspace μ) (command : Command μ) (error : Error) : Prop :=
  error.isRefusal = true ∨ error = .disposed ∧ ∃ id session, command.addressee? = some id ∧
    workspace.session? id = some session ∧ session.projection.disposed = true

theorem Reaches.ascending {first : Workspace μ} (reaches : Reaches audience first workspace)
    (ascending : first.Ascending) : workspace.Ascending := by
  induction reaches with
  | first => exact ascending
  | run _ command _ ih => exact ascending_run audience ih command

/-- Wherever a run of a workspace leads, a command that is refused changes nothing. -/
theorem same_of_refused (requests : audience.Requests) {master : Master}
    (reaches : Reaches audience { master } workspace) {command : Command μ} {error : Error}
    (replied : (workspace.run audience command).2 = .error error)
    (refused : workspace.Refuses command error) : (workspace.run audience command).1 = workspace := by
  have none : SoundIdle ({ master } : Workspace μ) fun _ => .none := fun _ member => nomatch member
  obtain ⟨sound, fits⟩ := reaches.soundIdle requests none
  have ascending : workspace.Ascending := reaches.ascending (List.pairwise_singleton _ _)
  rcases refused with refusal | ⟨rfl, id, session, addressed, found, disposed⟩
  · exact run_of_refusal requests fits sound ascending replied refusal
  · exact run_of_disposed ascending addressed found disposed replied

end Workspace

/-- Refused commands change nothing and tell nobody anything: wherever a run of a workspace leads, and
wherever a run of a projection alone with its master leads. -/
theorem unchanged_of_refused {audience : Audience μ} (requests : audience.Requests) (text : Text) :
    (∀ options memory allowance solo,
      Solo.Ensues audience (.start text options memory allowance) solo →
      ∀ (command : Solo.Command) error, command.Fits solo.master →
        (solo.run audience command).2 = .error error → solo.Refuses error →
          (solo.run audience command).1 = solo) ∧
    (∀ workspace, Workspace.Reaches audience { master := { text } } workspace →
      ∀ command error, (workspace.run audience command).2 = .error error →
        workspace.Refuses command error → (workspace.run audience command).1 = workspace) := by
  constructor
  · intro options memory allowance solo ensues command error fitting
    exact Solo.same_of_refused requests ensues fitting
  · intro workspace reaches command error
    exact Workspace.same_of_refused requests reaches

/-- A range is refused while an edit is pending, and a projection of a workspace refuses everything
after its listener disposed it. -/
theorem unchanged_of_refused_closed :
    let audience := Audience.once .dispose
    let solo : Solo Bool := .start ['a', 'b', 'c', 'd'] {} false 1
    let solo := (solo.run audience (.act (.request (.add ⟨0, 2⟩)))).1
    let solo := (solo.run audience (.act (.anticipate ⟨0, ⟨1, 1⟩, []⟩))).1
    let workspace := Workspace.runAll audience { master := { text := ['a', 'b', 'c', 'd'] } }
      [.createOf ⟨0, 2⟩ {} false 1, .request 0 .subscribe, .editMaster ⟨0, 1⟩ []]
    ((solo.run audience (.act (.request (.add ⟨3, 1⟩)))).2 = .error .editPending ∧
      (solo.run audience (.act (.request (.add ⟨3, 1⟩)))).1 = solo) ∧
    (workspace.run audience (.request 0 (.add ⟨2, 1⟩))).2 = .error .disposed ∧
      (workspace.run audience (.request 0 (.add ⟨2, 1⟩))).1 = workspace := by
  intro audience first shown solo workspace
  obtain ⟨alone, together⟩ :=
    unchanged_of_refused (Audience.once_requests .dispose) ['a', 'b', 'c', 'd']
  have ensues : Solo.Ensues audience first solo :=
    .run (.run .first (.act (.request (.add ⟨0, 2⟩)))) (.act (.anticipate ⟨0, ⟨1, 1⟩, []⟩))
  have reaches : Workspace.Reaches audience { master := { text := ['a', 'b', 'c', 'd'] } } workspace :=
    .run (.run (.run (.first (by decide)) (.createOf ⟨0, 2⟩ {} false 1) (by decide))
      (.request 0 .subscribe) (by decide)) (.editMaster ⟨0, 1⟩ []) (by decide)
  have pending : (solo.run audience (.act (.request (.add ⟨3, 1⟩)))).2 = .error .editPending := by
    decide +kernel
  have gone : (workspace.run audience (.request 0 (.add ⟨2, 1⟩))).2 = .error .disposed := by
    decide +kernel
  exact ⟨⟨pending, alone _ _ _ _ ensues _ _ nofun pending (.inl rfl)⟩, gone,
    together _ reaches _ _ gone (.inr ⟨rfl, 0, _, rfl, rfl, by decide +kernel⟩)⟩

end TextProjection
