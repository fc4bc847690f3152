import TextProjection.Proofs.Solo.Drafts
import TextProjection.Proofs.Solo.Told

/-! What listeners make of what they are told. Each of them is told before and after of each change that
is made, in the order of the changes, so it can keep a copy of the text.
-/

set_option autoImplicit false

namespace TextProjection

variable {μ : Type} {audience : Audience μ}

/-- Where nothing else waits to be told, a listener has seen all that was made of the text. -/
theorem Moment.Tells.mirror {telling : Listeners → Prop} {moment : Moment μ} {past news : List Entry}
    {text : Text} {delivery : Delivery} (tells : moment.Tells telling delivery)
    (accounts : moment.Accounts past delivery.listener) (replays : moment.Replays past text)
    (journal : moment.session.journal = past ++ news)
    (empty : delivery.projection.listeners.queue = []) :
    text.mirror (Journal.told delivery.listener (news ++ [.delivered delivery])) =
      some delivery.projection.text := by
  obtain ⟨projection, ⟨rest, current⟩, -, subscribed⟩ := tells
  obtain ⟨_, same, account⟩ := accounts.account
  obtain rfl := List.append_cancel_left (journal.symm.trans same)
  obtain ⟨_, same, replayed⟩ := replays
  obtain rfl := List.append_cancel_left (journal.symm.trans same)
  have told := account (projection ▸ subscribed)
  rw [Account, current, owed_of_mem (List.mem_cons_self ..), projection, empty, List.append_nil]
    at told
  rw [Journal.told_delivered, told, Text.mirror_append, Text.mirror_notifications, replayed,
    projection]
  exact Text.mirror_announced _ _

namespace Drafting

open Solo (trimming trimming_forbears)

variable {first drafting : Drafting μ} {listener : Nat}

theorem Reaches.leads (forbears : audience.Forbears) (invariant : first.Invariant)
    (reaches : Reaches audience first drafting) :
    Moment.Leads (fun _ => True) audience.telling first.session.moment drafting.session.moment := by
  induction reaches with
  | first fits => exact .refl
  | take reaches allowed fits ih =>
    have taken := take_takes forbears (reaches.invariant forbears invariant) allowed fits
    exact ih.trans (taken.leads.mono fun _ _ => trivial)

/-- Who is subscribed all the time and makes each change in a copy of the text on being told that it was
made has the text of the projection after each call. The changes lie inside the copy. If listeners do
nothing of which others are to be told, the copy is the same as the text whenever one of them is told of
something. -/
theorem mirror_of_reaches (forbears : audience.Forbears) (start : first.Invariant)
    (reaches : Reaches audience first drafting)
    (before : listener ∈ first.session.projection.listeners.ids)
    (after : listener ∈ drafting.session.projection.listeners.ids) :
    ∃ news, drafting.session.journal = first.session.journal ++ news ∧
      first.session.projection.text.mirror (Journal.told listener news) =
        some drafting.session.projection.text ∧
      ∀ earlier delivery later, news = earlier ++ .delivered delivery :: later →
        delivery.listener = listener →
        audience.Quiet ∨ delivery.projection.listeners.queue = [] →
          first.session.projection.text.mirror
              (Journal.told listener (earlier ++ [.delivered delivery])) =
            some delivery.projection.text := by
  have invariant := reaches.invariant forbears start
  have leads := reaches.leads forbears start
  have whole : drafting.session.projection.broken = false := invariant.soundPending.sound.whole
  have toldOnce := Session.toldOnce_moment start.numbered
  have accounts := Session.accounts_moment start.drained start.numbered before
  have replays := Session.replays_moment first.session
  obtain ⟨news, journal⟩ := leads.journal
  refine ⟨news, journal, ?_, fun earlier delivery later split mine undisturbed => ?_⟩
  · rw [Session.told_eq invariant.drained (leads.accounts whole toldOnce accounts) after journal,
      Text.mirror_notifications]
    exact Session.replay_eq (leads.replays whole replays) journal
  · subst split mine
    obtain ⟨middle, reached, rest, past, tells⟩ := leads.tells journal
    have whole := rest.whole whole
    refine tells.mirror (reached.accounts whole toldOnce accounts) (reached.replays whole replays)
      past ?_
    rcases undisturbed with quiet | empty
    · exact tells.ready.2 quiet
    · exact empty

def trimmed : Drafting Bool :=
  (watched ['a', 'b', 'c', 'd'] false 1).take trimming (.request (.add ⟨0, 3⟩))

def counted : Drafting Nat :=
  (watched ['a', 'b', 'c', 'd'] 0 0).take .counting (.request (.add ⟨0, 3⟩))

/-- One listener acts on being told, and an edit is settled that was not announced. The other one only
looks on. -/
theorem mirror_of_reaches_unannounced :
    let after := (trimmed.take trimming (.draft ⟨2, 2⟩ ['y', 'z'])).take trimming
      (.settle ⟨0, ⟨2, 2⟩, ['y', 'z']⟩)
    Text.mirror [] (Journal.told 0 after.session.journal) = some after.session.projection.text ∧
      ∀ earlier delivery later,
        counted.session.journal = earlier ++ .delivered delivery :: later → delivery.listener = 0 →
          Text.mirror [] (Journal.told 0 (earlier ++ [.delivered delivery])) =
            some delivery.projection.text := by
  intro after
  constructor
  · have reaches : Reaches trimming (watched ['a', 'b', 'c', 'd'] false 1) after := by
      apply Reaches.take _ (.settle (by decide +kernel) (by decide +kernel)) (by decide +kernel)
      apply Reaches.take _ (.draft _ _) (by decide +kernel)
      apply Reaches.take _ (.request (by decide)) (by decide +kernel)
      exact .first (by decide)
    obtain ⟨news, journal, mirrored, -⟩ :=
      mirror_of_reaches trimming_forbears ((watched_fresh ..).invariant reaches.fits) reaches
        (List.mem_singleton.mpr rfl) (by decide +kernel)
    rw [journal]
    exact mirrored
  · have forbears : Audience.counting.Forbears := fun count _ => .rest (count + 1)
    have reaches : Reaches .counting (watched ['a', 'b', 'c', 'd'] 0 0) counted := by
      apply Reaches.take _ (.request (by decide)) (by decide +kernel)
      exact .first (by decide)
    obtain ⟨news, journal, -, seen⟩ :=
      mirror_of_reaches forbears ((watched_fresh ..).invariant reaches.fits) reaches
        (List.mem_singleton.mpr rfl) (by decide +kernel)
    intro earlier delivery later split mine
    have same : counted.session.journal = news := journal
    exact seen earlier delivery later (same.symm.trans split) mine
      (.inl Audience.counting_passive.quiet)

end Drafting

end TextProjection
