import TextProjection.Proofs.Projection.Follow
import TextProjection.Proofs.Session.Pairing

/-! Two sessions with one projection. The same comes of any operation in both of them, whatever their
listeners remember, as long as telling the listeners keeps the sessions coupled. With a session coupled
to itself this says what all operations keep.
-/

set_option autoImplicit false

namespace TextProjection

variable {μ ν : Type}

structure Projection.Foresees (projection : Projection) : Prop where
  pending : ∀ edit change, projection.pending = some ⟨edit, some change⟩ → change.kind = .content
  outgoing : ∀ change, projection.outgoing = .forwarding (some change) → change.kind = .content

/-- The projection goes on: its settings and its listeners are the same, and so is whether it is in
use. -/
structure Projection.Continues (before after : Projection) : Prop where
  options : after.options = before.options
  listeners : after.listeners = before.listeners
  disposed : after.disposed = before.disposed
  foresees : before.Foresees → after.Foresees

namespace Projection

variable {first second third : Projection} (projection : Projection)

theorem Continues.trans (some : first.Continues second) (others : second.Continues third) :
    first.Continues third where
  options := others.options.trans some.options
  listeners := others.listeners.trans some.listeners
  disposed := others.disposed.trans some.disposed
  foresees := others.foresees ∘ some.foresees

theorem continues_reshaped (layout : Layout) (text : Text) (planned : Option Planned)
    (broken : Bool) : projection.Continues { projection with layout, text, planned, broken } :=
  ⟨rfl, rfl, rfl, fun foresees => ⟨foresees.pending, foresees.outgoing⟩⟩

theorem continues_forget : projection.Continues projection.forget :=
  ⟨rfl, rfl, rfl, fun foresees => ⟨nofun, foresees.outgoing⟩⟩

theorem continues_await (edit : Edit) {change? : Option Change}
    (content : ∀ change, change? = some change → change.kind = .content) :
    projection.Continues (projection.await edit change?) := by
  refine ⟨rfl, rfl, rfl, fun foresees => ⟨fun _ change found => ?_, foresees.outgoing⟩⟩
  exact content change (congrArg Pending.change (Option.some.inj found))

theorem continues_endForwarding : projection.Continues projection.endForwarding :=
  ⟨rfl, rfl, rfl, fun _ => ⟨nofun, nofun⟩⟩

theorem continues_seeded (edit : Edit) : projection.Continues (projection.seeded edit) := by
  rw [seeded_eq]
  exact continues_reshaped projection _ _ _ _

theorem continues_patch (change : Option Change) :
    projection.Continues (projection.patch change).state := by
  unfold patch
  split
  · exact continues_reshaped projection _ _ _ _
  · split <;> exact continues_reshaped projection _ _ _ _

variable {projection} in
theorem continues_begun {image origin : Region} {text : Text} {begun : Projection}
    (begins : projection.beginForwarding image text = .ok (origin, begun)) :
    projection.Continues begun := by
  obtain ⟨-, -, rfl⟩ := beginForwarding_ok begins
  refine ⟨rfl, rfl, rfl, fun foresees => ⟨foresees.pending, fun change outgoing => ?_⟩⟩
  cases outgoing
  rfl

theorem kind_of_imageOf? {edit : Edit} {change : Change}
    (foreseen : projection.imageOf? edit = some change) : change.kind = .content := by
  obtain ⟨image, -, rfl⟩ := Option.map_eq_some_iff.mp foreseen
  rfl

end Projection

namespace Session

/-- Sessions that have the same projection, and still belong together when the same is done to both and
when the listeners of both are told. -/
structure Coupling (first : Notifier μ) (second : Notifier ν)
    (paired : Session μ → Session ν → Prop) : Prop where
  agrees : ∀ left right, paired left right → right.projection = left.projection
  change : ∀ left right projection, paired left right → left.projection.Continues projection →
    paired { left with projection } { right with projection }
  note : ∀ left right overflowed, paired left right →
    paired (left.note overflowed) (right.note overflowed)
  applied : ∀ left right change, paired left right →
    paired (left.record (.applied change)) (right.record (.applied change))
  tell : ∀ master phase change left right, paired left right →
    paired (first master phase change left) (second master phase change right)

theorem Coupling.of_same {first second : Notifier μ} {holds : Session μ → Prop}
    (change : ∀ session projection, holds session → session.projection.Continues projection →
      holds { session with projection })
    (note : ∀ session overflowed, holds session → holds (session.note overflowed))
    (applied : ∀ session change, holds session → holds (session.record (.applied change)))
    (tell : ∀ master phase change session, holds session →
      first master phase change session = second master phase change session ∧
        holds (second master phase change session)) :
    Coupling first second fun left right => left = right ∧ holds left where
  agrees left right := by
    rintro ⟨rfl, -⟩
    rfl
  change left right projection := by
    rintro ⟨rfl, here⟩ continues
    exact ⟨rfl, change left projection here continues⟩
  note left right overflowed := by
    rintro ⟨rfl, here⟩
    exact ⟨rfl, note left overflowed here⟩
  applied left right change := by
    rintro ⟨rfl, here⟩
    exact ⟨rfl, applied left change here⟩
  tell master phase change left right := by
    rintro ⟨rfl, here⟩
    obtain ⟨same, there⟩ := tell master phase change left here
    exact ⟨same, same ▸ there⟩

section

variable {first : Notifier μ} {second : Notifier ν} {paired : Session μ → Session ν → Prop}
  (coupling : Coupling first second paired) {left : Session μ} {right : Session ν}
  (master : Master) (edit : Edit)

include coupling

theorem Coupling.pairing : Pairing first second master paired where
  agrees left right pair := ⟨left.projection.listeners, coupling.agrees left right pair⟩
  change left right layout text planned broken pair := by
    have changed := coupling.change left right _ pair
      (left.projection.continues_reshaped layout text planned broken)
    simp only [update, coupling.agrees left right pair]
    exact changed
  applied := coupling.applied
  tell left right phase change := coupling.tell master phase change left right

theorem update_both (pair : paired left right) (change : Projection → Projection)
    (continues : left.projection.Continues (change left.projection)) :
    paired (left.update change) (right.update change) := by
  simp only [update, coupling.agrees left right pair]
  exact coupling.change left right _ pair continues

theorem within_both (pair : paired left right) {operation : Projection → Outcome Projection}
    (continues : left.projection.Continues (operation left.projection).state) :
    (left.within operation).Both paired (right.within operation) := by
  simp only [within, coupling.agrees left right pair]
  exact ⟨rfl, coupling.change left right _ pair continues⟩

theorem report_both (pair : paired left right) (change : Change) :
    paired (left.report first master change) (right.report second master change) :=
  coupling.tell master .after change _ _ (coupling.applied left right change pair)

theorem takeForwarded_both (pair : paired left right) :
    (takeForwarded edit left).Both paired (takeForwarded edit right) := by
  refine within_both coupling pair ?_
  have seeded := left.projection.continues_seeded edit
  simp only
  split
  · next change outgoing =>
    refine seeded.trans ⟨rfl, rfl, rfl, fun foresees => ⟨fun _ taken found => ?_, nofun⟩⟩
    -- It is the change that was foreseen when the edit was made, now with the edit of the master.
    obtain rfl : { change with edit := some edit } = taken :=
      Option.some.inj (congrArg Pending.change (Option.some.inj found))
    exact foresees.outgoing change outgoing
  · exact seeded

theorem takeShown_both (pair : paired left right) :
    (takeShown first master edit left).Both paired (takeShown second master edit right) := by
  refine (fill_both (coupling.pairing master) (some edit) pair).andThen fun left right pair => ?_
  refine within_both coupling pair ?_
  split
  · next change foreseen =>
    exact left.projection.continues_await edit fun _ same =>
      Option.some.inj same ▸ left.projection.kind_of_imageOf? foreseen
  · exact left.projection.continues_reshaped _ _ _ _

theorem noteTouch_both (pair : paired left right) :
    paired (left.noteTouch edit) (right.noteTouch edit) := by
  simp only [noteTouch, coupling.agrees left right pair]
  exact coupling.note left right _ pair

theorem noteDrift_both (pair : paired left right) :
    paired (left.noteDrift edit) (right.noteDrift edit) := by
  simp only [noteDrift, coupling.agrees left right pair]
  exact coupling.note left right _ pair

theorem prepare_both (pair : paired left right) :
    (prepare first master edit left).Both paired (prepare second master edit right) := by
  have noted := noteTouch_both coupling edit
    (update_both coupling pair _ left.projection.continues_forget)
  unfold prepare
  generalize (left.update Projection.forget).noteTouch edit = left at noted
  generalize (right.update Projection.forget).noteTouch edit = right at noted
  have same := coupling.agrees _ _ noted
  have forwarding : right.isForwarding = left.isForwarding := by simp only [isForwarding, same]
  simp only [forwarding, same]
  split
  · exact takeForwarded_both coupling edit noted
  · split
    · exact takeShown_both coupling master edit noted
    · have seeded := left.projection.continues_seeded edit
      exact .done (update_both coupling noted _ (seeded.trans
        (Projection.continues_await _ edit fun _ => Projection.kind_of_imageOf? _)))

theorem anticipate_both (pair : paired left right) :
    (anticipate first master edit left).Both paired (anticipate second master edit right) := by
  simp only [anticipate, coupling.agrees left right pair]
  split
  · exact .done pair
  · cases left.projection.closed? with
    | some error => exact .fail pair error
    | none =>
      exact breakOnFault_both (coupling.pairing master)
        ((conclude_both (coupling.pairing master) pair).andThen fun _ _ =>
          prepare_both coupling master edit)

theorem followAnnounced_both (pair : paired left right) :
    (followAnnounced first master edit left).Both paired
      (followAnnounced second master edit right) := by
  simp only [followAnnounced, coupling.agrees left right pair]
  generalize left.projection.pending.bind (·.change) = change
  have told : paired (change.elim left fun change => first master .before change left)
      (change.elim right fun change => second master .before change right) := by
    cases change with
    | none => exact pair
    | some change => exact coupling.tell master .before change left right pair
  simp only [coupling.agrees _ _ told]
  split
  · exact .done told
  · refine (within_both coupling (noteDrift_both coupling edit told) ?_).andThen
      fun left right pair => .done ?_
    · exact (Projection.continues_forget _).trans
        ((Projection.continues_reshaped _ _ _ _ _).trans (Projection.continues_patch _ change))
    · cases change with
      | none => exact pair
      | some change => exact report_both coupling master pair change

theorem followUnannounced_both (pair : paired left right) :
    (followUnannounced first master edit left).Both paired
      (followUnannounced second master edit right) := by
  have followed := update_both coupling (noteDrift_both coupling edit pair)
    (fun projection => projection.forget.follow edit)
    (left.projection.continues_forget.trans (Projection.continues_reshaped _ _ _ _ _))
  simp only [followUnannounced, coupling.agrees _ _ followed]
  split
  · exact .fail followed _
  · next text _ =>
    split
    · exact within_both coupling followed (Projection.continues_reshaped _ _ _ _ _)
    · generalize Change.mk .content _ text _ (some edit) = change
      have awaiting := update_both coupling followed
        (fun projection => projection.await edit none) (Projection.continues_await _ edit nofun)
      have told := update_both coupling (coupling.tell master .before change _ _ awaiting)
        _ (Projection.continues_forget _)
      simp only [coupling.agrees _ _ told]
      split
      · exact .done told
      · exact (within_both coupling told (Projection.continues_reshaped _ _ _ _ _)).andThen
          fun left right pair =>
          .done (report_both coupling master pair change)

theorem confirm_both (pair : paired left right) :
    (confirm first master edit left).Both paired (confirm second master edit right) := by
  simp only [confirm, Outcome.guarded, coupling.agrees left right pair]
  split
  · exact .done pair
  · cases left.projection.closed? with
    | some error => exact .fail pair error
    | none =>
      refine breakOnFault_both (coupling.pairing master)
        ((conclude_both (coupling.pairing master) pair).andThen fun left right pair => ?_)
      split
      · exact followAnnounced_both coupling master edit pair
      · exact followUnannounced_both coupling master edit pair

def Beside (paired : Session μ → Session ν → Prop) (one : Master × Session μ)
    (other : Master × Session ν) : Prop :=
  one.1 = other.1 ∧ paired one.2 other.2

theorem editMaster_both (pair : paired left right) (region : Region) (text : Text) :
    (editMaster first master region text left).Both (Beside paired)
      (editMaster second master region text right) := by
  unfold editMaster
  cases master.prepare region text with
  | error error => exact .fail ⟨rfl, pair⟩ error
  | ok prepared =>
    obtain ⟨edit, master⟩ := prepared
    have anticipated := anticipate_both coupling master edit pair
    have prepared : ((anticipate first master edit left).map (master, ·)).Both (Beside paired)
        ((anticipate second master edit right).map (master, ·)) :=
      ⟨anticipated.error, rfl, anticipated.state⟩
    refine prepared.andThen ?_
    rintro ⟨master, left⟩ ⟨-, right⟩ ⟨rfl, pair⟩
    simp only
    cases master.commit edit with
    | error error => exact .fail ⟨rfl, update_both coupling pair _ left.projection.continues_forget⟩ error
    | ok master =>
      have confirmed := confirm_both coupling master edit pair
      exact ⟨confirmed.error, rfl, confirmed.state⟩

theorem replace_both (pair : paired left right) (image : Region) (text : Text) :
    (replace first master image text left).Both (Beside paired)
      (replace second master image text right) := by
  simp only [replace, coupling.agrees left right pair]
  split
  · exact .fail ⟨rfl, pair⟩ _
  · next origin projection begins =>
    have begun : paired { left with projection } { right with projection } :=
      coupling.change left right projection pair (Projection.continues_begun begins)
    have edited := editMaster_both coupling master begun origin text
    exact ⟨edited.error, edited.state.1,
      update_both coupling edited.state.2 _ (Projection.continues_endForwarding _)⟩

theorem act_both (pair : paired left right) {act : Act}
    (others : ∀ request, act = .request request → ¬ request.Ranges →
      paired (left.request first master request).1 (right.request second master request).1 ∧
        (left.request first master request).2 = (right.request second master request).2) :
    paired (left.act first master act).1 (right.act second master act).1 ∧
      (left.act first master act).2 = (right.act second master act).2 := by
  have replied {one : Outcome (Session μ)} {other : Outcome (Session ν)}
      (both : one.Both paired other) : paired one.reply.1 other.reply.1 ∧
        one.reply.2 = other.reply.2 := ⟨both.state, by rw [Outcome.reply, Outcome.reply, both.error]⟩
  cases act with
  | request request =>
    by_cases ranges : request.Ranges
    · have pairing := coupling.pairing master
      rcases request_both pairing ranges (by rw [coupling.agrees left right pair])
          (conclude_both pairing pair) with ⟨error, one, other⟩ | same
      · rw [Session.act, Session.act, one, other]
        exact ⟨pair, rfl⟩
      · exact same
    · exact others request rfl ranges
  | anticipate edit => exact replied (anticipate_both coupling master edit pair)
  | confirm edit => exact replied (confirm_both coupling master edit pair)
  | editCopy region text =>
    have edited := editMaster_both coupling master pair region text
    exact replied ⟨edited.error, edited.state.2⟩
  | replaceCopy image text =>
    have replaced := replace_both coupling master pair image text
    exact replied ⟨replaced.error, replaced.state.2⟩

end

end Session

end TextProjection
