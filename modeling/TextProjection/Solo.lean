import TextProjection.Session.Dispatch

/-! A projection alone with its master. -/

set_option autoImplicit false

namespace TextProjection

structure Solo (μ : Type) where
  master : Master
  session : Session μ
  deriving DecidableEq

namespace Solo

variable {μ : Type}

/-- What is prepared, committed or edited raw is no concern of the projection. It does not hear of it
unless an act announces or confirms it. -/
inductive Command where
  | act (act : Act)
  | edit (region : Region) (text : Text)
  | replace (image : Region) (text : Text)
  | set (text : Text)
  | prepare (region : Region) (text : Text)
  | commit (edit : Edit)
  | rawEdit (region : Region) (text : Text)
  deriving DecidableEq, Repr

def start (text : Text) (options : Options) (memory : μ) (allowance : Nat) : Solo μ :=
  ⟨{ text }, .start options memory allowance⟩

def ofPair (pair : Master × Session μ) : Solo μ := ⟨pair.1, pair.2⟩

def runBy (notify : Notifier μ) (solo : Solo μ) : Command → Solo μ × Reply
  | .act act =>
    let (session, reply) := solo.session.act notify solo.master act
    ({ solo with session }, reply)
  | .edit region text =>
    ((solo.session.editMaster notify solo.master region text).map ofPair).reply
  | .replace image text => ((solo.session.replace notify solo.master image text).map ofPair).reply
  | .set text => ((solo.session.set notify solo.master text).map ofPair).reply
  | .prepare region text =>
    match solo.master.prepare region text with
    | .ok (edit, master) => ({ solo with master }, .ok (.prepared edit))
    | .error error => (solo, .error error)
  | .commit edit =>
    match solo.master.commit edit with
    | .ok master => ({ solo with master }, .ok .done)
    | .error error => (solo, .error error)
  | .rawEdit region text =>
    match solo.master.replace region text with
    | .ok (edit, master) => ({ solo with master }, .ok (.prepared edit))
    | .error error => (solo, .error error)

variable (audience : Audience μ)

def run : Solo μ → Command → Solo μ × Reply := runBy (publish audience)

/-- The same, unless the program stops at a sum that is no word. -/
def run? (solo : Solo μ) (command : Command) : Option (Solo μ × Reply) :=
  let (solo, reply) := solo.run audience command
  if solo.session.overflowed then none else some (solo, reply)

end Solo

end TextProjection
