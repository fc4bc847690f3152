import TextProjection.Layout.Normal
import TextProjection.Projection

/-! How a projection follows the edits of its master. -/

set_option autoImplicit false

namespace TextProjection

def Layout.textUnder (layout : Layout) (text : Text) : Text := layout.fragments.flatMap text.slice

def Layout.span (layout : Layout) : Region :=
  match layout.pairs.head?, layout.pairs.getLast? with
  | some first, some last => .ofBounds first.fragment.offset last.fragment.stop
  | _, _ => ⟨0, 0⟩

namespace Projection

/-- Whether the edit meets a fragment or stands right after the last one, unless an end is
needed to tell that is no word. -/
def isTouchedBy? (projection : Projection) (edit : Edit) : Option Bool := do
  let met ← projection.layout.meeting? edit.region
  match projection.layout.pairs.getLast? with
  | some last =>
    if met.isEmpty ∧ last.fragment.offset < edit.region.offset then
      last.fragment.stop?.map (· == edit.region.offset)
    else some !met.isEmpty
  | none => some !met.isEmpty

def isTouchedBy (projection : Projection) (edit : Edit) : Bool :=
  (projection.isTouchedBy? edit).getD false

/-- Everything that the edit removes has to be shown before it is made. -/
def mustShow (projection : Projection) (edit : Edit) : Bool :=
  projection.isTouchedBy edit || (projection.options.autoExpand && 0 < edit.region.length)

/-- A projection without fragments is given an empty one if the edit only inserts. -/
def seeded (projection : Projection) (edit : Edit) : Projection :=
  if projection.layout.isEmpty ∧ edit.region.length = 0 then
    { projection with layout := (({} : Layout).insert 0 ⟨0, 0, false⟩).layOut }
  else projection

/-- What becomes of the projection when the edit is made, as far as it can be seen. -/
def imageOf? (projection : Projection) (edit : Edit) : Option Change :=
  (projection.layout.image? edit.region).map fun image =>
    ⟨.content, image, edit.text, edit.region, some edit⟩

def await (projection : Projection) (edit : Edit) (change : Option Change) : Projection :=
  { projection with pending := some ⟨edit, change⟩ }

def follow (projection : Projection) (edit : Edit) : Projection :=
  { projection with
    layout := (projection.layout.drift edit.splice .lastGrows).normalForm edit.region.offset }

def patch (projection : Projection) : Option Change → Outcome Projection
  | none => projection.checked
  | some change =>
    if projection.length < change.image.stop then
      .fail projection (.inconsistent (.contentBeyondEnd change.image))
    else checked { projection with text := projection.text.splice change.image change.text }

def reread (projection : Projection) (master : Master) : Except Fault Text :=
  match projection.layout.fragments.find? fun fragment => ¬ fragment.Inside master.length with
  | some fragment => .error (.fragmentOutsideMaster fragment master.length)
  | none => .ok (projection.layout.textUnder master.text)

/-- Begin to forward an edit of the projection; yields the master region to replace. It
runs from the origin of the first replaced character to that of the last one. -/
def beginForwarding (projection : Projection) (image : Region) (text : Text) :
    Except Error (Region × Projection) :=
  match projection.refuses?.or (projection.outside? image) with
  | some error => .error error
  | none =>
    let origin? :=
      if projection.layout.isEmpty then some ⟨0, 0⟩ else projection.layout.hull? image
    match origin? with
    | none => .error (.inconsistent (.noOrigin image))
    | some origin =>
      let change : Change := ⟨.content, image, text, origin, none⟩
      .ok (origin, { projection with outgoing := .forwarding (some change) })

end Projection

end TextProjection
