import TextProjection.Change
import TextProjection.Layout.Image
import TextProjection.Text

/-! A projection: the parts of the master text that are shown, one after the other, as
a text of their own.
-/

set_option autoImplicit false

namespace TextProjection

/-- How many gaps one addition of a range may fill, by the number of fragments. -/
structure Bound where
  perFragment : Nat := 2
  minimum : Nat := 20
  deriving DecidableEq, Repr

def Bound.limit (bound : Bound) (fragments : Nat) : Nat :=
  max (Offset.mulCapped bound.perFragment fragments) bound.minimum

structure Options where
  bound : Bound := {}
  /-- Master edits that remove text are shown even where the text was hidden. -/
  autoExpand : Bool := false
  deriving DecidableEq, Repr

structure Notification where
  phase : Phase
  change : Change
  deriving DecidableEq, Repr

structure Listeners where
  ids : List Nat := []
  nextId : Nat := 0
  queue : List Notification := []
  dispatching : Bool := false
  deriving DecidableEq, Repr

/-- An edit made in the projection, on its way to the master. -/
inductive Outgoing where
  | none
  /-- The change is there until the announcement of the edit has taken it up. -/
  | forwarding (change : Option Change)
  deriving DecidableEq, Repr

structure Projection where
  layout : Layout := {}
  text : Text := []
  options : Options := {}
  outgoing : Outgoing := .none
  pending : Option Pending := none
  planned : Option Planned := none
  listeners : Listeners := {}
  disposed : Bool := false
  broken : Bool := false
  deriving DecidableEq, Repr

namespace Projection

def length (projection : Projection) : Nat := projection.text.length

def lineCount (projection : Projection) : Nat := projection.text.lineCount

def closed? (projection : Projection) : Option Error :=
  if projection.disposed then some .disposed
  else if projection.broken then some (.inconsistent .unusable)
  else none

def refuses? (projection : Projection) : Option Error :=
  projection.closed?.or (projection.pending.map fun _ => .editPending)

def outside? (projection : Projection) (image : Region) : Option Error :=
  image.outside? projection.length

def get (projection : Projection) (image : Region) : Except Error Text :=
  match projection.outside? image with
  | none => .ok (projection.text.slice image)
  | some error => .error error

def lineOf (projection : Projection) (offset : Nat) : Except Error Nat :=
  match projection.outside? ⟨offset, 0⟩ with
  | none => .ok (projection.text.lineOf offset)
  | some error => .error error

def hidden (projection : Projection) (master : Master) (region : Region) :
    Except Error (List Region) :=
  match projection.closed?.or (master.outside? region) with
  | none => .ok (projection.layout.hidden region)
  | some error => .error error

def shown (projection : Projection) (master : Master) (region : Region) :
    Except Error (Option (List Region)) :=
  match projection.closed?.or (master.outside? region) with
  | none => .ok ((projection.layout.nearestImage? region).bind projection.layout.origins?)
  | some error => .error error

def fault? (projection : Projection) : Option Fault :=
  projection.layout.fault?.or <|
    if projection.length = projection.layout.coveredLength then none
    else some (.textLengthDiffers projection.length projection.layout.coveredLength)

def checked (projection : Projection) : Outcome Projection :=
  ⟨projection, projection.fault?.map .inconsistent⟩

def setAutoExpand (projection : Projection) (on : Bool) : Projection :=
  { projection with options.autoExpand := on }

def subscribe (projection : Projection) : Nat × Projection :=
  let listeners := projection.listeners
  (listeners.nextId, { projection with listeners := { listeners with
    ids := listeners.ids ++ [listeners.nextId]
    nextId := listeners.nextId + 1 } })

def unsubscribe (projection : Projection) (id : Nat) : Bool × Projection :=
  (id ∈ projection.listeners.ids,
    { projection with listeners.ids := projection.listeners.ids.filter (· != id) })

/-- Give everything up but the settings. What is being delivered right now is not
interrupted, but nothing else will be. -/
def dispose (projection : Projection) : Projection :=
  if projection.disposed then projection
  else { projection with
    layout := {}
    text := []
    outgoing := .none
    pending := none
    planned := none
    listeners := { projection.listeners with ids := [], queue := [] }
    disposed := true }

def forget (projection : Projection) : Projection := { projection with pending := none }

def endForwarding (projection : Projection) : Projection :=
  { projection with outgoing := .none, pending := none }

end Projection

end TextProjection
