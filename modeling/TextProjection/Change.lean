import TextProjection.Master

/-! Changes of a projection, as they are planned and as they are told to listeners. -/

set_option autoImplicit false

namespace TextProjection

inductive ChangeKind where
  | content
  | projection
  deriving DecidableEq, Repr

/-- The projection characters of `image` make way for `text`, because of something
that happens to the master characters of `origin`. -/
structure Change where
  kind : ChangeKind
  image : Region
  text : Text
  origin : Region
  edit : Option Edit := none
  deriving DecidableEq, Repr

inductive Phase where
  | before
  | after
  deriving DecidableEq, Repr

inductive Action where
  | bridge (left : Nat)
  | append (index : Nat)
  | prepend (index : Nat)
  | insert (index : Nat)
  | cut (index : Nat)
  | reset
  deriving DecidableEq, Repr

/-- A range change that is announced but not made yet. Its region is the origin of the
change that was announced. -/
structure Planned where
  action : Action
  change : Change
  deriving DecidableEq, Repr

structure Pending where
  edit : Edit
  /-- What will become of the projection; none if the edit cannot be seen there. -/
  change : Option Change
  deriving DecidableEq, Repr

end TextProjection
