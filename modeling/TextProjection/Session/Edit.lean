import TextProjection.Projection.Follow
import TextProjection.Session.Range

/-! Edits of the master as a session sees them, and edits of the projection.

A master edit is announced before it is committed, so that the projection can show all
that it removes, and confirmed afterwards. An edit of the projection is turned into one
of the master that comes back the same way.
-/

set_option autoImplicit false

namespace TextProjection.Session

variable {μ : Type} (notify : Notifier μ)

/-- Take an edit that the projection itself forwards: what will be changed is known. -/
def takeForwarded (edit : Edit) (session : Session μ) : Outcome (Session μ) :=
  session.within fun projection =>
    let projection := projection.seeded edit
    match projection.outgoing with
    | .forwarding (some change) =>
      .done ({ projection with outgoing := .forwarding none }.await edit
        (some { change with edit := some edit }))
    | _ => .fail projection (.inconsistent .noProjectionEdit)

def takeShown (master : Master) (edit : Edit) (session : Session μ) : Outcome (Session μ) :=
  (fill notify master edit.region (some edit) session).andThen fun session =>
    session.within fun projection =>
      match projection.imageOf? edit with
      | some change => .done (projection.await edit (some change))
      | none => .fail projection (.inconsistent (.noExactImage edit.region))

def takeOther (edit : Edit) (session : Session μ) : Session μ :=
  session.update fun projection =>
    let projection := projection.seeded edit
    projection.await edit (projection.imageOf? edit)

def isForwarding (session : Session μ) : Bool :=
  match session.projection.outgoing with
  | .none => false
  | .forwarding _ => true

def noteTouch (edit : Edit) (session : Session μ) : Session μ :=
  session.note (session.projection.isTouchedBy? edit).isNone

def noteDrift (edit : Edit) (session : Session μ) : Session μ :=
  session.note (session.projection.layout.drift? edit.splice .lastGrows).isNone

/-- Get ready for an edit. One that was announced earlier is given up. -/
def prepare (master : Master) (edit : Edit) (session : Session μ) : Outcome (Session μ) :=
  let session := (session.update Projection.forget).noteTouch edit
  if session.isForwarding then takeForwarded edit session
  else if session.projection.mustShow edit then takeShown notify master edit session
  else .done (takeOther edit session)

def anticipate (master : Master) (edit : Edit) (session : Session μ) : Outcome (Session μ) :=
  if session.projection.disposed then .done session
  else
    .guarded session.projection.closed? session fun session =>
      breakOnFault ((conclude notify master session).andThen (prepare notify master edit))

def reportAny (master : Master) (change : Option Change) (session : Session μ) : Session μ :=
  change.elim session fun change => session.report notify master change

/-- Follow an edit whose change of the projection is known. The edit is still pending
while listeners are told of it beforehand. -/
def followAnnounced (master : Master) (edit : Edit) (session : Session μ) :
    Outcome (Session μ) :=
  let change := session.projection.pending.bind (·.change)
  let session := change.elim session fun change => notify master .before change session
  if change.isSome ∧ session.projection.disposed then .done session
  else
    ((session.noteDrift edit).within fun projection => (projection.forget.follow edit).patch change)
      |>.andThen fun session => .done (reportAny notify master change session)

/-- Follow an edit that was not announced: read the text anew. -/
def followUnannounced (master : Master) (edit : Edit) (session : Session μ) :
    Outcome (Session μ) :=
  let session := (session.noteDrift edit).update fun projection => projection.forget.follow edit
  match session.projection.reread master with
  | .error fault => .fail session (.inconsistent fault)
  | .ok text =>
    if text = session.projection.text then session.within Projection.checked
    else
      let change : Change :=
        ⟨.content, ⟨0, session.projection.length⟩, text, session.projection.layout.span, some edit⟩
      -- The edit counts as pending while listeners still see the old text.
      let session := session.update fun projection => projection.await edit none
      let session := (notify master .before change session).update Projection.forget
      if session.projection.disposed then .done session
      else
        (session.within fun projection => { projection with text }.checked)
          |>.andThen fun session => .done (session.report notify master change)

def confirm (master : Master) (edit : Edit) (session : Session μ) : Outcome (Session μ) :=
  if session.projection.disposed then .done session
  else
    .guarded session.projection.closed? session fun session =>
      let announced := session.projection.pending.any (·.edit.id == edit.id)
      breakOnFault <| (conclude notify master session).andThen <|
        if announced then followAnnounced notify master edit
        else followUnannounced notify master edit

def editMaster (master : Master) (region : Region) (text : Text) (session : Session μ) :
    Outcome (Master × Session μ) :=
  match master.prepare region text with
  | .error error => .fail (master, session) error
  | .ok (edit, master) =>
    ((anticipate notify master edit session).map (master, ·)).andThen fun (master, session) =>
      match master.commit edit with
      | .error error => .fail (master, session.update Projection.forget) error
      | .ok master => (confirm notify master edit session).map (master, ·)

def replace (master : Master) (image : Region) (text : Text) (session : Session μ) :
    Outcome (Master × Session μ) :=
  match session.projection.beginForwarding image text with
  | .error error => .fail (master, session) error
  | .ok (origin, projection) =>
    (editMaster notify master origin text { session with projection }).map fun (master, session) =>
      (master, session.update Projection.endForwarding)

def set (master : Master) (text : Text) (session : Session μ) : Outcome (Master × Session μ) :=
  replace notify master ⟨0, session.projection.length⟩ text session

end TextProjection.Session
