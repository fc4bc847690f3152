import TextProjection.Layout.Normal
import TextProjection.Projection

/-! Range changes are planned first and carried out later, after they were announced. -/

set_option autoImplicit false

namespace TextProjection

namespace Layout

/-- How the fragments take in a gap, by the neighbours that it touches; none if it runs
into a fragment. -/
def fillAction? (layout : Layout) (gap : Region) : Option Action :=
  let index := layout.firstFrom gap.offset
  let next := layout.pairs[index]?.map (·.fragment)
  let previous := if 0 < index then layout.pairs[index - 1]?.map (·.fragment) else none
  if next.any fun fragment => 0 < fragment.length &&
      (fragment.offset == gap.offset || fragment.offset < gap.stop) then
    none
  else if previous.any (·.contains gap.offset) then none
  else
    let touchesNext := next.any (·.offset == gap.stop)
    let left :=
      if previous.any (·.stop == gap.offset) then some (index - 1)
      else if next.any (·.offset == gap.offset) then some index
      else none
    match left with
    | some left => some (if touchesNext then .bridge left else .append left)
    | none => some (if touchesNext then .prepend index else .insert index)

/-- Take a region out of a fragment: off its start, or out of its middle, which leaves a
deleted fragment between the two parts. -/
def cut (layout : Layout) (index : Nat) (pair : Pair) (region : Region) : Layout :=
  let fragment := pair.fragment
  let change (fragment : Interval) : Layout := ⟨layout.pairs.set index { pair with fragment }⟩
  if fragment.offset = region.offset then
    change { fragment with
      offset := region.stop
      length := fragment.length - region.length }
  else
    change { fragment with length := region.offset - fragment.offset }
      |>.insert (index + 1) ⟨region.offset, region.length, true⟩
      |>.insert (index + 2) ⟨region.stop, fragment.stop - region.stop, false⟩

def reshape (layout : Layout) (region : Region) : Action → Except Fault Layout
  | .bridge left => (layout.join? left).elim (.error (.noRightNeighbour left)) .ok
  | .append index =>
    (layout.modifyFragment? index fun fragment =>
      { fragment with length := region.stop - fragment.offset }).elim
        (.error (.noPair index)) .ok
  | .prepend index =>
    (layout.modifyFragment? index fun fragment =>
      { fragment with
        offset := region.offset
        length := fragment.length + region.length }).elim
        (.error (.noPair index)) .ok
  | .insert index => .ok (layout.insert index ⟨region.offset, region.length, false⟩)
  | .cut index =>
    match layout.pairs[index]? with
    | some pair => .ok (layout.cut index pair region)
    | none => .error .removalTargetVanished
  | .reset => .ok (({} : Layout).insert 0 ⟨region.offset, region.length, false⟩)

end Layout

def Planned.textAfter (planned : Planned) (text : Text) : Except Fault Text :=
  let change := planned.change
  match planned.action with
  | .reset => .ok change.text
  | .cut _ =>
    if text.length < change.image.stop then .error (.removalBeyondEnd change.image)
    else .ok (text.splice change.image [])
  | _ =>
    if text.length < change.image.offset then .error (.insertionBeyondEnd change.image.offset)
    else .ok (text.splice ⟨change.image.offset, 0⟩ change.text)

namespace Projection

def planFill (projection : Projection) (master : Master) (gap : Region) (edit : Option Edit) :
    Except Error Planned :=
  match projection.layout.fillAction? gap with
  | none => .error (.runsIntoFragment gap)
  | some action => do
    let text ← master.get gap
    let start := projection.layout.segmentStart (projection.layout.firstFrom gap.offset)
    return ⟨action, .projection, ⟨start, 0⟩, text, gap, edit⟩

def planRemoval (projection : Projection) (region : Region) : Except Error Planned :=
  let holder := projection.layout.pairs.findIdx? fun pair =>
    pair.fragment.offset ≤ region.offset && region.stop ≤ pair.fragment.stop
  match projection.layout.image? region, holder with
  | some image, some index => .ok ⟨.cut index, .projection, image, [], region, none⟩
  | _, _ => .error (.notShown region)

def planReset (projection : Projection) (master : Master) (region : Region) :
    Except Error Planned := do
  let text ← master.get region
  return ⟨.reset, .projection, ⟨0, projection.length⟩, text, region, none⟩

def carryOut (projection : Projection) (planned : Planned) : Outcome Projection :=
  let region := planned.change.origin
  match projection.layout.reshape region planned.action with
  | .error fault => .fail projection (.inconsistent fault)
  | .ok layout =>
    let projection := { projection with layout := layout.layOut }
    match planned.textAfter projection.text with
    | .error fault => .fail projection (.inconsistent fault)
    | .ok text =>
      checked { projection with text, layout := projection.layout.normalForm region.offset }

end Projection

end TextProjection
