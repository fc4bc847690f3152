import Mathlib.Data.List.Induction
import TextProjection.Proofs.Session.Closed
import TextProjection.Proofs.Session.Dispatch
import TextProjection.Solo
import TextProjection.Workspace

/-! A projection of a workspace has nothing to do with the others but the edits of their master.
Whatever becomes of it there becomes of it alone with a master of its own, as long as it is asked
for the same and the same edits are announced to it, committed and confirmed.
-/

set_option autoImplicit false

namespace TextProjection

variable {μ : Type}

namespace Solo

/-- What a projection goes through. -/
inductive Experience where
  | request (request : Request)
  | hear (region : Region) (text : Text)
  | forward (image : Region) (text : Text)
  deriving DecidableEq, Repr

variable (audience : Audience μ)

/-- Prepare an edit of the master, announce it, commit it and confirm it, whatever the
announcement comes to. -/
def hear (solo : Solo μ) (region : Region) (text : Text) : Solo μ :=
  match solo.run audience (.prepare region text) with
  | (solo, .ok (.prepared edit)) =>
    [.act (.anticipate edit), .commit edit, .act (.confirm edit)].foldl
      (fun solo command => (solo.run audience command).1) solo
  | (solo, _) => solo

def undergo (solo : Solo μ) : Experience → Solo μ
  | .request request => (solo.run audience (.act (.request request))).1
  | .hear region text => solo.hear audience region text
  | .forward image text =>
    match solo.session.projection.beginForwarding image text with
    | .error _ => solo
    | .ok (origin, projection) =>
      let solo := hear audience { solo with session := { solo.session with projection } } origin text
      { solo with session := solo.session.update Projection.endForwarding }

end Solo

namespace Workspace

/-- What an edit of one projection is to another: the edit of the master that it is turned into. -/
def reachingReplace (workspace : Workspace μ) (id other : Nat) (image : Region) (text : Text) :
    Option Solo.Experience :=
  if other = id then some (.forward image text)
  else
    (workspace.session? other).bind fun session =>
      match session.projection.beginForwarding image text with
      | .ok (origin, _) => some (.hear origin text)
      | .error _ => none

def reaching (workspace : Workspace μ) (id : Nat) : Command μ → Option Solo.Experience
  | .create .. | .createOf .. => none
  | .request other request => if other = id then some (.request request) else none
  | .replace other image text => workspace.reachingReplace id other image text
  | .set other text =>
    (workspace.session? other).bind fun session =>
      workspace.reachingReplace id other ⟨0, session.projection.length⟩ text
  | .editMaster region text => some (.hear region text)
  | .setMaster text => some (.hear ⟨0, workspace.master.length⟩ text)

variable (audience : Audience μ)

def runAll (workspace : Workspace μ) (commands : List (Command μ)) : Workspace μ :=
  commands.foldl (fun workspace command => (workspace.run audience command).1) workspace

def experiences (workspace : Workspace μ) (id : Nat) : List (Command μ) → List Solo.Experience
  | [] => []
  | command :: rest =>
    (workspace.reaching id command).toList ++
      experiences (workspace.run audience command).1 id rest

def created? (workspace : Workspace μ) : Command μ → Option (Solo μ)
  | .create options memory allowance => some ⟨workspace.master, .start options memory allowance⟩
  | .createOf region options memory allowance =>
    if region.Inside workspace.master.length then
      some (Solo.undergo audience ⟨workspace.master, .start options memory allowance⟩
        (.request (.reset region)))
    else none
  | _ => none

end Workspace

/-! Hearing alone -/

namespace Session

variable {notify : Notifier μ} {master : Master} {session : Session μ} {edit : Edit}

theorem anticipate_of_broken (broken : session.projection.broken = true) :
    (anticipate notify master edit session).state = session := by
  cases closed : session.projection.closed? with
  | none => exact nomatch broken.symm.trans (Projection.usable_of_closed? closed).2
  | some error => rw [anticipate_of_closed closed]

theorem confirm_of_broken (broken : session.projection.broken = true) :
    (confirm notify master edit session).state = session := by
  cases closed : session.projection.closed? with
  | none => exact nomatch broken.symm.trans (Projection.usable_of_closed? closed).2
  | some error => rw [confirm_of_closed closed]

end Session

namespace Solo

variable {audience : Audience μ} {master : Master} {session : Session μ} {region : Region}
  {text : Text}

theorem hear_of_inside (inside : region.Inside master.length) :
    hear audience ⟨master, session⟩ region text =
      ⟨⟨master.text.splice region text, master.version + 1, master.nextEdit + 1⟩,
        (Session.confirm (publish audience)
          ⟨master.text.splice region text, master.version + 1, master.nextEdit + 1⟩
          ⟨master.nextEdit, region, text⟩
          (Session.anticipate (publish audience) { master with nextEdit := master.nextEdit + 1 }
            ⟨master.nextEdit, region, text⟩ session).state).state⟩ := by
  simp only [hear, run, runBy, Master.prepare_eq inside, List.foldl_cons, List.foldl_nil, Session.act,
    Outcome.reply, Master.commit_prepared inside]

theorem hear_of_outside (outside : ¬ region.Inside master.length) :
    hear audience ⟨master, session⟩ region text = ⟨master, session⟩ := by
  simp only [hear, run, runBy, Master.prepare_eq_error outside]

end Solo

/-! Looking up one session -/

namespace Workspace

variable {audience : Audience μ} {workspace : Workspace μ} {id : Nat} {session : Session μ}
  {operation : Session μ → Outcome (Session μ)}

theorem lookup_map {α : Type} (change : Nat → α → α) (entries : List (Nat × α)) :
    (entries.map fun entry => (entry.1, change entry.1 entry.2)).lookup id =
      (entries.lookup id).map (change id) := by
  induction entries with
  | nil => rfl
  | cons entry rest ih =>
    obtain ⟨key, value⟩ := entry
    by_cases same : id = key
    · subst same
      simp
    · simp [List.lookup_cons, beq_false_of_ne same, ih]

theorem session?_modify (workspace : Workspace μ) (id other : Nat) (change : Session μ → Session μ) :
    (workspace.modify other change).session? id =
      (workspace.session? id).map fun session => if id = other then change session else session :=
  lookup_map (fun key session => if key = other then change session else session) _

theorem session?_tell (operation : Session μ → Outcome (Session μ)) :
    (workspace.tell operation).state.session? id = (workspace.session? id).map fun session =>
      if session.projection.broken then session else (operation session).state := by
  have each (entries : List (Nat × Session μ)) :
      (entries.map fun entry => (entry.1, entry.2,
        if entry.2.projection.broken then Outcome.done entry.2 else operation entry.2)).map
          (fun entry => (entry.1, entry.2.2.state)) =
        entries.map fun entry => (entry.1,
          if entry.2.projection.broken then entry.2 else (operation entry.2).state) := by
    rw [List.map_map]
    apply List.map_congr_left
    intro entry _
    cases broken : entry.2.projection.broken <;> simp [Outcome.done, broken]
  exact (congrArg (List.lookup id) (each workspace.sessions)).trans (lookup_map (fun _ session =>
    if session.projection.broken then session else (operation session).state) _)

theorem session?_commit (audience : Audience μ) (workspace : Workspace μ) (id : Nat) {edit : Edit}
    (inside : edit.region.Inside workspace.master.length) :
    (workspace.commit audience edit).state.master = { workspace.master with
        text := workspace.master.text.splice edit.region edit.text
        version := workspace.master.version + 1 } ∧
      (workspace.commit audience edit).state.session? id = (workspace.session? id).map fun session =>
        (Session.confirm (publish audience) { workspace.master with
          text := workspace.master.text.splice edit.region edit.text
          version := workspace.master.version + 1 } edit
          (Session.anticipate (publish audience) workspace.master edit session).state).state := by
  -- Those that are broken are passed over, and they would have taken no notice.
  have skipped (heard : Session μ → Outcome (Session μ))
      (deaf : ∀ session, session.projection.broken = true → (heard session).state = session) :
      (fun session => if session.projection.broken then session else (heard session).state) =
        fun session => (heard session).state := by
    funext session
    cases broken : session.projection.broken
    · simp
    · simp [deaf session broken]
  simp only [commit, Master.commit_eq inside]
  constructor
  · rfl
  · rw [session?_tell, skipped _ fun _ => Session.confirm_of_broken]
    change Option.map _ ((workspace.tell _).state.session? id) = _
    rw [session?_tell, skipped _ fun _ => Session.anticipate_of_broken, Option.map_map]
    rfl

/-- The master and one of the projections are the same in a workspace and alone. -/
def Agrees (workspace : Workspace μ) (id : Nat) (solo : Solo μ) : Prop :=
  workspace.master = solo.master ∧ workspace.session? id = some solo.session

theorem agrees_editMaster (audience : Audience μ) {solo : Solo μ}
    (agrees : workspace.Agrees id solo) (region : Region) (text : Text) :
    (workspace.editMaster audience region text).state.Agrees id (solo.hear audience region text) := by
  obtain ⟨master, session⟩ := solo
  obtain ⟨rfl, found⟩ := agrees
  by_cases inside : region.Inside workspace.master.length
  · rw [Solo.hear_of_inside inside]
    simp only [editMaster, Master.prepare_eq inside]
    -- Preparing the edit takes a number for it and leaves the sessions alone.
    have insideEdit : (Edit.mk workspace.master.nextEdit region text).region.Inside
        { workspace.master with nextEdit := workspace.master.nextEdit + 1 }.length := inside
    obtain ⟨master, sessions⟩ := session?_commit audience { workspace with
      master := { workspace.master with nextEdit := workspace.master.nextEdit + 1 } } id insideEdit
    refine ⟨master, sessions.trans ?_⟩
    change Option.map _ (workspace.session? id) = _
    rw [found]
    rfl
  · rw [Solo.hear_of_outside inside]
    simp only [editMaster, Master.prepare_eq_error inside]
    exact ⟨rfl, found⟩

theorem agrees_modify {solo : Solo μ} (agrees : workspace.Agrees id solo) (other : Nat)
    (change : Session μ → Session μ) :
    (workspace.modify other change).Agrees id
      (if id = other then { solo with session := change solo.session } else solo) := by
  obtain ⟨master, found⟩ := agrees
  have looked := session?_modify workspace id other change
  rw [found] at looked
  by_cases same : id = other
  · rw [if_pos same]
    simp only [Option.map_some, if_pos same] at looked
    exact ⟨master, looked⟩
  · rw [if_neg same]
    simp only [Option.map_some, if_neg same] at looked
    exact ⟨master, looked⟩

theorem agrees_replace (audience : Audience μ) {solo : Solo μ} (agrees : workspace.Agrees id solo)
    (other : Nat) (image : Region) (text : Text) :
    (workspace.replace audience other image text).state.Agrees id
      ((workspace.reachingReplace id other image text).toList.foldl (Solo.undergo audience) solo) := by
  unfold Workspace.replace reachingReplace
  by_cases same : other = id
  · subst same
    simp only [agrees.2, if_true, Option.toList_some, List.foldl_cons, List.foldl_nil, Solo.undergo]
    cases begins : solo.session.projection.beginForwarding image text with
    | error error => exact agrees
    | ok begun =>
      have opened := agrees_modify agrees other fun session => { session with projection := begun.2 }
      rw [if_pos rfl] at opened
      have edited := agrees_editMaster audience opened begun.1 text
      have ended := agrees_modify edited other fun session => session.update Projection.endForwarding
      rw [if_pos rfl] at ended
      exact ended
  · have differs : id ≠ other := fun equal => same equal.symm
    simp only [if_neg same]
    cases found : workspace.session? other with
    | none => exact agrees
    | some session =>
      simp only [Option.bind_some]
      cases begins : session.projection.beginForwarding image text with
      | error error => exact agrees
      | ok begun =>
        have opened := agrees_modify agrees other fun session => { session with projection := begun.2 }
        rw [if_neg differs] at opened
        have edited := agrees_editMaster audience opened begun.1 text
        have ended := agrees_modify edited other fun session => session.update Projection.endForwarding
        rw [if_neg differs] at ended
        exact ended

theorem lookup_filter {α : Type} (other : Nat) (entries : List (Nat × α)) :
    (entries.filter (·.1 != other)).lookup id = if id = other then none else entries.lookup id := by
  induction entries with
  | nil => simp
  | cons entry rest ih =>
    obtain ⟨key, value⟩ := entry
    by_cases gone : key = other
    · subst gone
      rw [List.filter_cons_of_neg (by simp), ih]
      by_cases same : id = key
      · rw [if_pos same, if_pos same]
      · rw [if_neg same, if_neg same, List.lookup_cons, beq_false_of_ne same]
    · rw [List.filter_cons_of_pos (by simpa using gone), List.lookup_cons, List.lookup_cons, ih]
      by_cases same : id = key
      · subst same
        simp [gone]
      · rw [beq_false_of_ne same]

theorem agrees_request (audience : Audience μ) {solo : Solo μ} (agrees : workspace.Agrees id solo)
    (other : Nat) (request : Request) :
    (workspace.request audience other request).1.Agrees id
      ((workspace.reaching id (.request other request)).toList.foldl (Solo.undergo audience) solo) ∨
        (workspace.request audience other request).1.session? id = none := by
  unfold Workspace.request
  simp only [reaching]
  cases found : workspace.session? other with
  | none =>
    have differs : other ≠ id := by
      rintro rfl
      cases found.symm.trans agrees.2
    rw [if_neg differs]
    exact .inl agrees
  | some session =>
    have changed := agrees_modify agrees other fun _ =>
      (session.request (publish audience) workspace.master request).1
    by_cases same : other = id
    · subst same
      obtain rfl : session = solo.session := Option.some.inj (found.symm.trans agrees.2)
      rw [if_pos rfl, agrees.1] at changed
      simp only [if_true, Option.toList_some, List.foldl_cons, List.foldl_nil, agrees.1]
      split
      · exact .inr ((lookup_filter other _).trans (if_pos rfl))
      · exact .inl changed
    · have differs : id ≠ other := fun equal => same equal.symm
      rw [if_neg differs] at changed
      simp only [if_neg same]
      left
      split
      · exact ⟨changed.1, (lookup_filter other _).trans ((if_neg differs).trans changed.2)⟩
      · exact changed

/-! Identities -/

def Numbered (workspace : Workspace μ) : Prop :=
  ∀ id ∈ workspace.sessions.map (·.1), id < workspace.nextId

def Ascending (workspace : Workspace μ) : Prop :=
  (workspace.sessions.map (·.1) ++ [workspace.nextId]).Pairwise (· < ·)

theorem Ascending.numbered (ascending : workspace.Ascending) : workspace.Numbered :=
  fun id member => (List.pairwise_append.mp ascending).2.2 id member _ (List.mem_singleton_self _)

theorem Numbered.absent (numbered : workspace.Numbered) :
    workspace.session? workspace.nextId = none := by
  cases found : workspace.session? workspace.nextId with
  | none => rfl
  | some session =>
    obtain ⟨front, back, split, -⟩ := List.lookup_eq_some_iff.mp found
    exact absurd (numbered workspace.nextId (by simp [split])) (Nat.lt_irrefl _)

theorem Ascending.of_sublist {after : Workspace μ} (ascending : workspace.Ascending)
    (sublist : (after.sessions.map (·.1)).Sublist (workspace.sessions.map (·.1)))
    (next : after.nextId = workspace.nextId) : after.Ascending := by
  unfold Ascending
  rw [next]
  exact ascending.sublist (sublist.append (List.Sublist.refl _))

theorem Ascending.of_eq {after : Workspace μ} (ascending : workspace.Ascending)
    (same : after.sessions.map (·.1) = workspace.sessions.map (·.1))
    (next : after.nextId = workspace.nextId) : after.Ascending := by
  unfold Ascending
  rw [same, next]
  exact ascending

theorem map_fst_modify (id : Nat) (change : Session μ → Session μ) :
    (workspace.modify id change).sessions.map (·.1) = workspace.sessions.map (·.1) := by
  simp [modify]

theorem map_fst_tell (operation : Session μ → Outcome (Session μ)) :
    (workspace.tell operation).state.sessions.map (·.1) = workspace.sessions.map (·.1) := by
  simp [tell]

theorem ascending_editMaster (audience : Audience μ) (ascending : workspace.Ascending)
    (region : Region) (text : Text) :
    (workspace.editMaster audience region text).state.Ascending := by
  unfold editMaster
  split
  · exact ascending
  · next edit master _ =>
    simp only [commit]
    split
    · exact ascending.of_eq (map_fst_tell _) rfl
    · exact ascending.of_eq ((map_fst_tell _).trans (map_fst_tell _)) rfl

theorem ascending_replace (audience : Audience μ) (ascending : workspace.Ascending) (id : Nat)
    (image : Region) (text : Text) :
    (workspace.replace audience id image text).state.Ascending := by
  unfold Workspace.replace
  split
  · exact ascending
  · split
    · exact ascending
    · next origin projection _ =>
      have opened : (workspace.modify id fun session => { session with projection }).Ascending :=
        ascending.of_eq (map_fst_modify _ _) rfl
      have edited := ascending_editMaster audience opened origin text
      exact edited.of_eq (map_fst_modify _ _) rfl

theorem ascending_create (ascending : workspace.Ascending) (options : Options) (memory : μ)
    (allowance : Nat) : (workspace.create options memory allowance).2.Ascending := by
  have given := ascending.numbered
  unfold Ascending
  simp only [create, List.map_append, List.map_cons, List.map_nil]
  rw [List.pairwise_append]
  refine ⟨ascending, List.pairwise_singleton _ _, fun id member next last => ?_⟩
  rw [List.mem_singleton.mp last]
  rcases List.mem_append.mp member with member | member
  · exact Nat.lt_succ_of_lt (given id member)
  · rw [List.mem_singleton.mp member]
    exact Nat.lt_succ_self _

theorem ascending_request (audience : Audience μ) (ascending : workspace.Ascending) (id : Nat)
    (request : Request) :
    (workspace.request audience id request).1.Ascending := by
  unfold Workspace.request
  split
  · exact ascending
  · next session _ =>
    generalize session.request (publish audience) workspace.master request = changed
    have modified : (workspace.modify id fun _ => changed.1).Ascending :=
      ascending.of_eq (map_fst_modify _ _) rfl
    simp only
    split
    · exact modified.of_sublist (List.filter_sublist.map _) rfl
    · exact modified

theorem ascending_run (audience : Audience μ) (ascending : workspace.Ascending)
    (command : Command μ) : (workspace.run audience command).1.Ascending := by
  cases command with
  | create options memory allowance => exact ascending_create ascending options memory allowance
  | createOf region options memory allowance =>
    simp only [run, createOf]
    split
    · exact ascending
    · exact ascending_request audience (ascending_create ascending options memory allowance) _ _
  | request id request => exact ascending_request audience ascending id request
  | replace id image text => exact ascending_replace audience ascending id image text
  | set id text =>
    simp only [run, set]
    split
    · exact ascending
    · exact ascending_replace audience ascending id _ text
  | editMaster region text => exact ascending_editMaster audience ascending region text
  | setMaster text => exact ascending_editMaster audience ascending _ text

theorem ascending_runAll (ascending : workspace.Ascending) (commands : List (Command μ)) :
    (workspace.runAll audience commands).Ascending := by
  induction commands generalizing workspace with
  | nil => exact ascending
  | cons command rest ih => exact ih (ascending_run audience ascending command)

/-! A run -/

/-- What reaches a projection makes of it alone what the command makes of it in the workspace,
unless it leaves the workspace. -/
theorem agrees_run (audience : Audience μ) (numbered : workspace.Numbered) {solo : Solo μ}
    (agrees : workspace.Agrees id solo) (command : Command μ) :
    (workspace.run audience command).1.Agrees id
        ((workspace.reaching id command).toList.foldl (Solo.undergo audience) solo) ∨
      (workspace.run audience command).1.session? id = none := by
  have created (options : Options) (memory : μ) (allowance : Nat) :
      (workspace.create options memory allowance).2.Agrees id solo :=
    ⟨agrees.1, List.lookup_append.trans <| by
      rw [show workspace.sessions.lookup id = _ from agrees.2]
      rfl⟩
  cases command with
  | create options memory allowance => exact .inl (created options memory allowance)
  | createOf region options memory allowance =>
    simp only [run, createOf]
    split
    · exact .inl agrees
    · have differs : workspace.nextId ≠ id := by
        rintro rfl
        cases numbered.absent.symm.trans agrees.2
      have shown := agrees_request audience (created options memory allowance) workspace.nextId
        (.reset region)
      simp only [reaching, if_neg differs] at shown
      exact shown
  | request other request => exact agrees_request audience agrees other request
  | replace other image text => exact .inl (agrees_replace audience agrees other image text)
  | set other text =>
    left
    simp only [run, set, reaching]
    cases found : workspace.session? other with
    | none => exact agrees
    | some session => exact agrees_replace audience agrees other _ text
  | editMaster region text => exact .inl (agrees_editMaster audience agrees region text)
  | setMaster text =>
    left
    have heard := agrees_editMaster audience agrees ⟨0, workspace.master.length⟩ text
    exact heard

theorem absent_editMaster (absent : workspace.session? id = none) (region : Region) (text : Text) :
    (workspace.editMaster audience region text).state.session? id = none := by
  by_cases inside : region.Inside workspace.master.length
  · have insideEdit : (Edit.mk workspace.master.nextEdit region text).region.Inside
        { workspace.master with nextEdit := workspace.master.nextEdit + 1 }.length := inside
    obtain ⟨-, sessions⟩ := session?_commit audience { workspace with
      master := { workspace.master with nextEdit := workspace.master.nextEdit + 1 } } id insideEdit
    simp only [editMaster, Master.prepare_eq inside]
    rw [sessions]
    change Option.map _ (workspace.session? id) = none
    rw [absent]
    rfl
  · simp only [editMaster, Master.prepare_eq_error inside]
    exact absent

theorem absent_modify (absent : workspace.session? id = none) (other : Nat)
    (change : Session μ → Session μ) : (workspace.modify other change).session? id = none := by
  rw [session?_modify, absent]
  rfl

theorem absent_replace (absent : workspace.session? id = none) (other : Nat) (image : Region)
    (text : Text) : (workspace.replace audience other image text).state.session? id = none := by
  unfold Workspace.replace
  split
  · exact absent
  · split
    · exact absent
    · exact absent_modify (absent_editMaster (absent_modify absent _ _) _ _) _ _

theorem absent_request (absent : workspace.session? id = none) (other : Nat) (request : Request) :
    (workspace.request audience other request).1.session? id = none := by
  unfold Workspace.request
  split
  · exact absent
  · next session _ =>
    have modified := absent_modify absent other fun _ =>
      (session.request (publish audience) workspace.master request).1
    simp only
    split
    · refine (lookup_filter other _).trans ?_
      split
      · rfl
      · exact modified
    · exact modified

theorem session?_create (absent : workspace.session? id = none) (options : Options) (memory : μ)
    (allowance : Nat) :
    (workspace.create options memory allowance).2.session? id =
      if workspace.nextId = id then some (.start options memory allowance) else none := by
  refine List.lookup_append.trans ?_
  rw [show workspace.sessions.lookup id = none from absent, Option.none_or, List.lookup_cons]
  by_cases same : workspace.nextId = id
  · simp [same]
  · rw [if_neg same, beq_false_of_ne fun equal => same equal.symm]
    rfl

theorem agrees_created (audience : Audience μ) (absent : workspace.session? id = none)
    {command : Command μ} {session : Session μ}
    (present : (workspace.run audience command).1.session? id = some session) :
    workspace.nextId = id ∧ ∃ solo, workspace.created? audience command = some solo ∧
      (workspace.run audience command).1.Agrees id solo := by
  have created := session?_create absent
  cases command with
  | create options memory allowance =>
    have found := created options memory allowance
    by_cases same : workspace.nextId = id
    · exact ⟨same, _, rfl, rfl, found.trans (if_pos same)⟩
    · cases present.symm.trans (found.trans (if_neg same))
  | createOf region options memory allowance =>
    have found := created options memory allowance
    simp only [run, createOf, created?, Master.outside?, Region.outside?] at present ⊢
    by_cases inside : region.Inside workspace.master.length
    · simp only [if_pos inside] at present ⊢
      by_cases same : workspace.nextId = id
      · subst same
        have begun : (workspace.create options memory allowance).2.Agrees workspace.nextId
            ⟨workspace.master, .start options memory allowance⟩ :=
          ⟨rfl, found.trans (if_pos rfl)⟩
        have shown := agrees_request audience begun workspace.nextId (.reset region)
        simp only [reaching, if_true, Option.toList_some, List.foldl_cons, List.foldl_nil] at shown
        rcases shown with shown | lost
        · exact ⟨rfl, _, rfl, shown⟩
        · cases present.symm.trans lost
      · cases present.symm.trans (absent_request (found.trans (if_neg same)) _ _)
    · simp only [if_neg inside] at present
      cases present.symm.trans absent
  | request other request => cases present.symm.trans (absent_request absent other request)
  | replace other image text => cases present.symm.trans (absent_replace absent other image text)
  | set other text =>
    simp only [run, set] at present
    split at present
    · cases present.symm.trans absent
    · cases present.symm.trans (absent_replace absent other _ text)
  | editMaster region text => cases present.symm.trans (absent_editMaster absent region text)
  | setMaster text => cases present.symm.trans (absent_editMaster absent _ text)

theorem runAll_concat (workspace : Workspace μ) (commands : List (Command μ)) (command : Command μ) :
    workspace.runAll audience (commands ++ [command]) =
      ((workspace.runAll audience commands).run audience command).1 := by
  rw [runAll, List.foldl_append]
  rfl

theorem experiences_concat (workspace : Workspace μ) (id : Nat) (commands : List (Command μ))
    (command : Command μ) :
    workspace.experiences audience id (commands ++ [command]) =
      workspace.experiences audience id commands ++
        ((workspace.runAll audience commands).reaching id command).toList := by
  induction commands generalizing workspace with
  | nil => simp [experiences, runAll]
  | cons first rest ih =>
    rw [List.cons_append, experiences, experiences, ih, List.append_assoc]
    rfl

/-- Wherever a run leads, a projection of the workspace and the master are what they would be had the
projection been alone with a master of its own since it was created, and gone through what reached it
of the run. -/
theorem alone_of_present {master : Master} {commands : List (Command μ)} {id : Nat}
    {session : Session μ}
    (present : (({ master } : Workspace μ).runAll audience commands).session? id = some session) :
    ∃ before creation after solo, commands = before ++ creation :: after ∧
      (({ master } : Workspace μ).runAll audience before).nextId = id ∧
      (({ master } : Workspace μ).runAll audience before).created? audience creation = some solo ∧
      ((({ master } : Workspace μ).runAll audience (before ++ [creation])).experiences audience id
          after).foldl (Solo.undergo audience) solo =
        ⟨(({ master } : Workspace μ).runAll audience commands).master, session⟩ := by
  have empty : ({ master } : Workspace μ).Ascending := List.pairwise_singleton _ _
  have numbered (commands : List (Command μ)) :
      (({ master } : Workspace μ).runAll audience commands).Numbered :=
    (ascending_runAll empty commands).numbered
  induction commands using List.reverseRecOn generalizing session with
  | nil => cases present
  | append_singleton commands command ih =>
    rw [runAll_concat] at present
    cases found : (({ master } : Workspace μ).runAll audience commands).session? id with
    | none =>
      obtain ⟨next, solo, created, same, here⟩ := agrees_created audience found present
      cases here.symm.trans present
      refine ⟨commands, command, [], solo, rfl, next, created, ?_⟩
      rw [runAll_concat, same]
      rfl
    | some earlier =>
      obtain ⟨before, creation, after, solo, split, next, created, reached⟩ := ih found
      have agrees : (({ master } : Workspace μ).runAll audience commands).Agrees id
          ⟨(({ master } : Workspace μ).runAll audience commands).master, earlier⟩ := ⟨rfl, found⟩
      have again : (({ master } : Workspace μ).runAll audience (before ++ [creation])).runAll audience
          after = ({ master } : Workspace μ).runAll audience commands := by
        rw [split, runAll, runAll, runAll, ← List.foldl_append, List.append_assoc,
          List.singleton_append]
      refine ⟨before, creation, after ++ [command], solo, by rw [split, List.append_assoc]; rfl, next,
        created, ?_⟩
      rw [experiences_concat, List.foldl_append, reached, again, runAll_concat]
      rcases agrees_run audience (numbered commands) agrees command with ⟨same, here⟩ | lost
      · rw [same, Option.some.inj (present.symm.trans here)]
      · cases present.symm.trans lost

/-- The other projection exceeds its limit on the first edit, and it makes the second one. -/
theorem alone_of_present_two :
    let audience := Audience.once (.add ⟨4, 1⟩)
    let master : Master := { text := ['a', 'b', 'c', 'd', 'e'] }
    let commands : List (Command Bool) := [.createOf ⟨0, 2⟩ {} false 1, .request 0 .subscribe,
      .createOf ⟨3, 1⟩ ⟨⟨0, 0⟩, true⟩ false 1, .editMaster ⟨0, 3⟩ ['x', 'y'],
      .replace 1 ⟨0, 1⟩ ['z']]
    ∃ session, (({ master } : Workspace Bool).runAll audience commands).session? 0 = some session ∧
      session.projection.text = ['z', 'y', 'e'] ∧
      ∃ before creation after solo, commands = before ++ creation :: after ∧
        (({ master } : Workspace Bool).runAll audience before).nextId = 0 ∧
        (({ master } : Workspace Bool).runAll audience before).created? audience creation = some solo ∧
        ((({ master } : Workspace Bool).runAll audience (before ++ [creation])).experiences audience 0
            after).foldl (Solo.undergo audience) solo =
          ⟨(({ master } : Workspace Bool).runAll audience commands).master, session⟩ :=
  ⟨_, rfl, by decide, alone_of_present rfl⟩

end Workspace

end TextProjection
