import TextProjection.Session.Dispatch

/-! A workspace: one master and the projections that are cut from it. Every edit of the
master is announced to all of them before it is committed and confirmed to all of them
afterwards, in the order of their identities.
-/

set_option autoImplicit false

namespace TextProjection

structure Workspace (μ : Type) where
  master : Master
  sessions : List (Nat × Session μ) := []
  nextId : Nat := 0
  journal : List (Nat × Entry) := []
  deriving DecidableEq

namespace Workspace

variable {μ : Type}

def session? (workspace : Workspace μ) (id : Nat) : Option (Session μ) :=
  workspace.sessions.lookup id

/-- Change one session. What it adds to its journal is added to that of the workspace. -/
def modify (workspace : Workspace μ) (id : Nat) (change : Session μ → Session μ) :
    Workspace μ :=
  { workspace with
    sessions := workspace.sessions.map fun (other, session) =>
      (other, if other = id then change session else session)
    journal := workspace.journal ++ (workspace.session? id).elim [] fun session =>
      ((change session).journal.drop session.journal.length).map (id, ·) }

def create (workspace : Workspace μ) (options : Options) (memory : μ) (allowance : Nat) :
    Nat × Workspace μ :=
  (workspace.nextId, { workspace with
    sessions := workspace.sessions ++ [(workspace.nextId, .start options memory allowance)]
    nextId := workspace.nextId + 1 })

variable (audience : Audience μ)

/-- A request to one of the projections. One that is disposed leaves the workspace. -/
def request (workspace : Workspace μ) (id : Nat) (request : Request) : Workspace μ × Reply :=
  match workspace.session? id with
  | none => (workspace, .error (.unknownProjection id))
  | some session =>
    let (changed, reply) := session.request (publish audience) workspace.master request
    let workspace := workspace.modify id fun _ => changed
    if request = .dispose then
      ({ workspace with sessions := workspace.sessions.filter (·.1 != id) }, reply)
    else (workspace, reply)

def createOf (workspace : Workspace μ) (region : Region) (options : Options) (memory : μ)
    (allowance : Nat) : Workspace μ × Reply :=
  match workspace.master.outside? region with
  | some error => (workspace, .error error)
  | none =>
    let (id, workspace) := workspace.create options memory allowance
    let (workspace, reply) := workspace.request audience id (.reset region)
    (workspace, reply.map fun _ => .projection id)

/-- Let every session that is not broken hear of something. The first error counts, but
the others hear of it nevertheless. -/
def tell (workspace : Workspace μ) (operation : Session μ → Outcome (Session μ)) :
    Outcome (Workspace μ) :=
  let hear (session : Session μ) : Outcome (Session μ) :=
    if session.projection.broken then .done session else operation session
  let outcomes := workspace.sessions.map fun (id, session) => (id, session, hear session)
  { state := { workspace with
      sessions := outcomes.map fun (id, _, outcome) => (id, outcome.state)
      journal := workspace.journal ++ outcomes.flatMap fun (id, session, outcome) =>
        (outcome.state.journal.drop session.journal.length).map (id, ·) }
    error := outcomes.findSome? fun (_, _, outcome) => outcome.error }

def commit (workspace : Workspace μ) (edit : Edit) : Outcome (Workspace μ) :=
  let announced := workspace.tell (Session.anticipate (publish audience) workspace.master edit)
  match workspace.master.commit edit with
  | .error error => .fail announced.state error
  | .ok master =>
    let confirmed := { announced.state with master }.tell
      (Session.confirm (publish audience) master edit)
    ⟨confirmed.state, announced.error.or confirmed.error⟩

def editMaster (workspace : Workspace μ) (region : Region) (text : Text) :
    Outcome (Workspace μ) :=
  match workspace.master.prepare region text with
  | .error error => .fail workspace error
  | .ok (edit, master) => { workspace with master }.commit audience edit

def setMaster (workspace : Workspace μ) (text : Text) : Outcome (Workspace μ) :=
  workspace.editMaster audience ⟨0, workspace.master.length⟩ text

def replace (workspace : Workspace μ) (id : Nat) (image : Region) (text : Text) :
    Outcome (Workspace μ) :=
  match workspace.session? id with
  | none => .fail workspace (.unknownProjection id)
  | some session =>
    match session.projection.beginForwarding image text with
    | .error error => .fail workspace error
    | .ok (origin, projection) =>
      let workspace := workspace.modify id fun session => { session with projection }
      (workspace.editMaster audience origin text).map fun workspace =>
        workspace.modify id fun session => session.update Projection.endForwarding

def set (workspace : Workspace μ) (id : Nat) (text : Text) : Outcome (Workspace μ) :=
  match workspace.session? id with
  | none => .fail workspace (.unknownProjection id)
  | some session => workspace.replace audience id ⟨0, session.projection.length⟩ text

inductive Command (μ : Type) where
  | create (options : Options) (memory : μ) (allowance : Nat)
  | createOf (region : Region) (options : Options) (memory : μ) (allowance : Nat)
  | request (id : Nat) (request : Request)
  | replace (id : Nat) (image : Region) (text : Text)
  | set (id : Nat) (text : Text)
  | editMaster (region : Region) (text : Text)
  | setMaster (text : Text)
  deriving DecidableEq, Repr

def run (workspace : Workspace μ) : Command μ → Workspace μ × Reply
  | .create options memory allowance =>
    let (id, workspace) := workspace.create options memory allowance
    (workspace, .ok (.projection id))
  | .createOf region options memory allowance =>
    workspace.createOf audience region options memory allowance
  | .request id request => workspace.request audience id request
  | .replace id image text => (workspace.replace audience id image text).reply
  | .set id text => (workspace.set audience id text).reply
  | .editMaster region text => (workspace.editMaster audience region text).reply
  | .setMaster text => (workspace.setMaster audience text).reply

/-- The same, unless the program stops at a sum that is no word. -/
def run? (workspace : Workspace μ) (command : Command μ) : Option (Workspace μ × Reply) :=
  let (workspace, reply) := workspace.run audience command
  if workspace.sessions.any (·.2.overflowed) then none else some (workspace, reply)

end Workspace

end TextProjection
