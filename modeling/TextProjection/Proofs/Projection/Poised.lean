import TextProjection.Proofs.Projection.Follow
import TextProjection.Proofs.Session.Journal

/-! What changes do to the text, for any projection whatsoever. It need not be well-formed, nor fit the
master text: either a fault is found, or the text is changed as was announced.
-/

set_option autoImplicit false

namespace TextProjection

namespace Layout

variable {layout : Layout}

theorem fills_of_fillAction? {gap : Region} {action : Action}
    (found : layout.fillAction? gap = some action) : action.Fills := by
  unfold fillAction? at found
  extract_lets index next previous touchesNext left at found
  clear_value left
  split at found
  · cases found
  · split at found
    · cases found
    · split at found <;> obtain rfl := Option.some.inj found <;> split <;> trivial

end Layout

/-- To carry out the range change is to make the change of the text that is announced. -/
structure Planned.Suits (text : Text) (planned : Planned) : Prop where
  kind : planned.change.kind = .projection
  makes : ∀ after, planned.textAfter text = .ok after → text.make? planned.change = some after

theorem Planned.suits_of_fills {text : Text} {planned : Planned} (fills : planned.action.Fills)
    (kind : planned.change.kind = .projection) (empty : planned.change.image.length = 0) :
    planned.Suits text := by
  obtain ⟨action, ⟨_, ⟨offset, length⟩, replacement, _, _⟩⟩ := planned
  simp only at empty
  subst empty
  refine ⟨kind, fun after accepted => ?_⟩
  have inserted : (if text.length < offset then Except.error (Fault.insertionBeyondEnd offset)
      else .ok (text.splice ⟨offset, 0⟩ replacement)) = .ok after := by
    cases action <;> first | exact accepted | exact fills.elim
  split at inserted
  · cases inserted
  · next inside =>
    rw [Text.make?, if_pos (Region.inside_iff.mpr (Nat.not_lt.mp inside))]
    exact congrArg some (Except.ok.inj inserted)

namespace Projection

variable {projection : Projection} {master : Master} {planned : Planned} {change : Change}

/-! Range changes -/

theorem suits_of_planFill {gap : Region} {edit : Option Edit}
    (plan : projection.planFill master gap edit = .ok planned) :
    planned.Suits projection.text := by
  unfold planFill at plan
  split at plan
  · cases plan
  · next action found =>
    cases shown : master.get gap with
    | error error => simp [shown, bind, Except.bind] at plan
    | ok text =>
      simp only [shown, bind, Except.bind, pure, Except.pure, Except.ok.injEq] at plan
      subst plan
      exact Planned.suits_of_fills (Layout.fills_of_fillAction? found) rfl rfl

theorem suits_of_planRemoval {region : Region}
    (plan : projection.planRemoval region = .ok planned) : planned.Suits projection.text := by
  unfold planRemoval at plan
  simp only at plan
  split at plan
  · next image index _ _ =>
    obtain rfl := Except.ok.inj plan
    refine ⟨rfl, fun after accepted => ?_⟩
    simp only [Planned.textAfter] at accepted
    split at accepted
    · cases accepted
    · next inside =>
      rw [Text.make?, if_pos (Region.inside_iff.mpr (Nat.not_lt.mp inside))]
      exact congrArg some (Except.ok.inj accepted)
  · cases plan

theorem suits_of_planReset {region : Region}
    (plan : projection.planReset master region = .ok planned) : planned.Suits projection.text := by
  unfold planReset at plan
  cases shown : master.get region with
  | error error => simp [shown, bind, Except.bind] at plan
  | ok text =>
    simp only [shown, bind, Except.bind, pure, Except.pure, Except.ok.injEq] at plan
    subst plan
    refine ⟨rfl, fun after accepted => ?_⟩
    exact Text.make?_whole rfl (Except.ok.inj accepted)

/-! What is carried out -/

theorem checked_cases (projection : Projection) :
    projection.checked = .done projection ∨
      ∃ fault, projection.checked = .fail projection (.inconsistent fault) := by
  cases found : projection.fault? with
  | none => exact .inl (by simp [checked, found, Outcome.done])
  | some fault => exact .inr ⟨fault, by simp [checked, found, Outcome.fail]⟩

/-- The change of the text that was announced is made, or a fault is found. -/
theorem carryOut_cases (suits : planned.Suits projection.text) :
    (∃ layout text, projection.carryOut planned = .done { projection with layout, text } ∧
      projection.text.make? planned.change = some text) ∨
      ∃ layout text fault,
        projection.carryOut planned = .fail { projection with layout, text } (.inconsistent fault) := by
  unfold carryOut
  simp only
  split
  · next fault _ => exact .inr ⟨_, _, fault, rfl⟩
  · next layout _ =>
    split
    · next fault _ => exact .inr ⟨_, _, fault, rfl⟩
    · next text accepted =>
      rcases checked_cases { projection with
        layout := layout.layOut.normalForm planned.change.origin.offset
        text } with done | ⟨fault, failed⟩
      · exact .inl ⟨_, text, done, suits.makes text accepted⟩
      · exact .inr ⟨_, _, fault, failed⟩

/-! What is foreseen -/

theorem patch_cases (projection : Projection) (change : Change) :
    (∃ text, projection.patch (some change) = .done { projection with text } ∧
      projection.text.make? change = some text) ∨
      ∃ text fault,
        projection.patch (some change) = .fail { projection with text } (.inconsistent fault) := by
  simp only [patch]
  split
  · exact .inr ⟨projection.text, _, rfl⟩
  · next inside =>
    have made : projection.text.make? change =
        some (projection.text.splice change.image change.text) :=
      if_pos (Region.inside_iff.mpr (Nat.not_lt.mp inside))
    rcases checked_cases { projection with
      text := projection.text.splice change.image change.text } with done | ⟨fault, failed⟩
    · exact .inl ⟨_, done, made⟩
    · exact .inr ⟨_, fault, failed⟩

/-- What is planned was announced as the change of the text that it makes. -/
def Poised (projection : Projection) : Prop :=
  ∀ planned, projection.planned = some planned → planned.Suits projection.text

theorem poised_of_idle (idle : projection.planned = none) : projection.Poised := by
  simp [Poised, idle]

end Projection

end TextProjection
