import TextProjection.Interval
import TextProjection.Error
import TextProjection.Text

/-! The master text, from which projections are cut.

An edit is prepared first, which checks it and gives it an identity, and committed
later, so that it can be announced in between.
-/

set_option autoImplicit false

namespace TextProjection

structure Edit where
  id : Nat
  region : Region
  text : Text
  deriving DecidableEq, Repr

def Edit.splice (edit : Edit) : Splice := ⟨edit.region.offset, edit.region.length, edit.text.length⟩

structure Master where
  text : Text := []
  version : Nat := 0
  nextEdit : Nat := 0
  deriving DecidableEq, Repr

namespace Master

def length (master : Master) : Nat := master.text.length

def outside? (master : Master) (region : Region) : Option Error := region.outside? master.length

def get (master : Master) (region : Region) : Except Error Text :=
  match master.outside? region with
  | none => .ok (master.text.slice region)
  | some error => .error error

def prepare (master : Master) (region : Region) (text : Text) : Except Error (Edit × Master) :=
  match master.outside? region with
  | none => .ok (⟨master.nextEdit, region, text⟩, { master with nextEdit := master.nextEdit + 1 })
  | some error => .error error

def commit (master : Master) (edit : Edit) : Except Error Master :=
  match master.outside? edit.region with
  | none => .ok { master with
      text := master.text.splice edit.region edit.text
      version := master.version + 1 }
  | some error => .error error

def replace (master : Master) (region : Region) (text : Text) : Except Error (Edit × Master) := do
  let (edit, master) ← master.prepare region text
  let master ← master.commit edit
  return (edit, master)

end Master

end TextProjection
