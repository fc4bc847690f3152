import TextProjection.Proofs.Text.Pick
import TextProjection.Session

/-! What can be read off the journal of a session: which changes were made, and what a listener was
told. Whoever is told before and after of each change that is made has a copy of the text.
-/

set_option autoImplicit false

namespace TextProjection

def Change.notifications (change : Change) : List Notification :=
  [⟨.before, change⟩, ⟨.after, change⟩]

namespace Journal

def made? : Entry → Option Change
  | .applied change => some change
  | .delivered _ => none

def made (entries : List Entry) : List Change := entries.filterMap made?

def told? (listener : Nat) : Entry → Option Notification
  | .applied _ => none
  | .delivered delivery => if delivery.listener = listener then some delivery.notification else none

def told (listener : Nat) (entries : List Entry) : List Notification :=
  entries.filterMap (told? listener)

theorem made_applied (entries : List Entry) (change : Change) :
    made (entries ++ [.applied change]) = made entries ++ [change] :=
  List.filterMap_append

theorem made_delivered (entries : List Entry) (delivery : Delivery) :
    made (entries ++ [.delivered delivery]) = made entries :=
  List.filterMap_append.trans (List.append_nil _)

theorem told_applied (listener : Nat) (entries : List Entry) (change : Change) :
    told listener (entries ++ [.applied change]) = told listener entries :=
  List.filterMap_append.trans (List.append_nil _)

theorem told_delivered (delivery : Delivery) (entries : List Entry) :
    told delivery.listener (entries ++ [.delivered delivery]) =
      told delivery.listener entries ++ [delivery.notification] := by
  simp [told, told?]

theorem told_delivered_of_ne {listener : Nat} (delivery : Delivery)
    (other : delivery.listener ≠ listener) (entries : List Entry) :
    told listener (entries ++ [.delivered delivery]) = told listener entries := by
  simp [told, told?, other]

end Journal

namespace Text

def make? (text : Text) (change : Change) : Option Text :=
  if change.image.Inside text.length then some (text.splice change.image change.text) else none

def replay (text : Text) (changes : List Change) : Option Text := changes.foldlM make? text

/-- A copy of a text, kept by someone who makes each change in it on being told that it was made. -/
def mirror (text : Text) (notifications : List Notification) : Option Text :=
  notifications.foldlM (fun text notification =>
    match notification.phase with
    | .before => some text
    | .after => text.make? notification.change) text

theorem make?_whole {text replacement : Text} {change : Change}
    (whole : change.image = ⟨0, text.length⟩) (replaces : change.text = replacement) :
    text.make? change = some replacement := by
  have inside : change.image.Inside text.length := by
    rw [whole]
    exact Region.inside_iff.mpr (Nat.zero_add _).le
  rw [make?, if_pos inside, whole, replaces]
  exact congrArg some (splice_whole text replacement)

theorem replay_concat (text : Text) (changes : List Change) (change : Change) :
    text.replay (changes ++ [change]) = (text.replay changes).bind (·.make? change) := by
  simp [replay, List.foldlM_append]

theorem mirror_append (text : Text) (first second : List Notification) :
    text.mirror (first ++ second) = (text.mirror first).bind (·.mirror second) :=
  List.foldlM_append

/-- Who is told before and after of each change has a copy of what it makes of the text. -/
theorem mirror_notifications (text : Text) (changes : List Change) :
    text.mirror (changes.flatMap Change.notifications) = text.replay changes := by
  induction changes generalizing text with
  | nil => rfl
  | cons change rest ih =>
    have one : text.mirror change.notifications = text.make? change := by
      simp [mirror, Change.notifications]
    rw [List.flatMap_cons, mirror_append, one, funext ih, replay, List.foldlM_cons]
    rfl

theorem mirror_announced (text : Text) (opened : Option Change) :
    text.mirror (opened.toList.map (⟨.before, ·⟩)) = some text := by
  cases opened <;> rfl

end Text

end TextProjection
