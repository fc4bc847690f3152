import TextProjection.Proofs.Master
import TextProjection.Proofs.Session.Pairing

/-! A projection that is disposed, or in which a fault was found, is closed. Nothing that is asked of it
changes it or is told to anybody.
-/

set_option autoImplicit false

namespace TextProjection

theorem Projection.closed?_of_disposed {projection : Projection}
    (disposed : projection.disposed = true) : projection.closed? = some .disposed :=
  if_pos disposed

theorem Projection.closed?_of_broken {projection : Projection} (live : projection.disposed = false)
    (broken : projection.broken = true) :
    projection.closed? = some (.inconsistent .unusable) := by
  simp [closed?, live, broken]

theorem Projection.usable_of_closed? {projection : Projection} (usable : projection.closed? = none) :
    projection.disposed = false ∧ projection.broken = false := by
  unfold closed? at usable
  split at usable
  · cases usable
  · next live =>
    split at usable
    · cases usable
    · next whole => exact ⟨by simpa using live, by simpa using whole⟩

theorem Projection.usable_of_refuses? {projection : Projection} (usable : projection.refuses? = none) :
    projection.disposed = false ∧ projection.broken = false :=
  usable_of_closed? (Option.or_eq_none_iff.mp usable).1

namespace Session

variable {μ : Type} {notify : Notifier μ} {master : Master} {session : Session μ} {edit : Edit}
  {region image : Region} {text : Text}

theorem request_of_refused {error : Error} (refuses : session.projection.refuses? = some error)
    {request : Request} (ranges : request.Ranges) :
    session.request notify master request = (session, .error error) := by
  have refused (region : Region) (operation : Session μ → Outcome (Session μ)) :
      changeRanges notify master region session operation = .fail session error := by
    simp only [changeRanges, refuses, Option.some_or, Outcome.guarded]
  cases request with
  | add region | remove region | reset region => exact congrArg Outcome.reply (refused region _)
  | setAutoExpand _ | subscribe | unsubscribe _ | dispose => exact ranges.elim

section
variable {error : Error} (closed : session.projection.closed? = some error)

include closed

theorem request_of_closed {request : Request} (ranges : request.Ranges) :
    session.request notify master request = (session, .error error) := by
  apply request_of_refused _ ranges
  rw [Projection.refuses?, closed, Option.some_or]

theorem replace_of_closed : replace notify master image text session =
    .fail (master, session) error := by
  simp only [replace, Projection.beginForwarding, Projection.refuses?, closed, Option.some_or]

theorem set_of_closed : set notify master text session = .fail (master, session) error :=
  replace_of_closed closed

theorem anticipate_of_closed : anticipate notify master edit session =
    ⟨session, if session.projection.disposed then none else some error⟩ := by
  unfold anticipate
  split
  · rfl
  · rw [closed]
    rfl

theorem confirm_of_closed : confirm notify master edit session =
    ⟨session, if session.projection.disposed then none else some error⟩ := by
  unfold confirm
  split
  · rfl
  · rw [closed]
    rfl

theorem editMaster_of_closed :
    (editMaster notify master region text session).state.2 = session := by
  unfold editMaster
  by_cases inside : region.Inside master.length
  · simp only [Master.prepare_eq inside, anticipate_of_closed closed, confirm_of_closed closed,
      Outcome.map, Outcome.andThen, Master.commit_prepared inside]
    split <;> rfl
  · simp only [Master.prepare_eq_error inside, Outcome.fail]

theorem error_editMaster_of_disposed (disposed : session.projection.disposed = true)
    (inside : region.Inside master.length) :
    (editMaster notify master region text session).error = none := by
  simp only [editMaster, Master.prepare_eq inside, anticipate_of_closed closed,
    confirm_of_closed closed, disposed, if_true, Outcome.map, Outcome.andThen,
    Master.commit_prepared inside]

theorem act_of_closed (act : Act) : (session.act notify master act).1 = session ∨
    ∃ request, act = .request request ∧ ¬ request.Ranges := by
  cases act with
  | request request =>
    by_cases ranges : request.Ranges
    · exact .inl (congrArg Prod.fst (request_of_closed closed ranges))
    · exact .inr ⟨request, rfl, ranges⟩
  | anticipate edit => exact .inl (congrArg Outcome.state (anticipate_of_closed closed))
  | confirm edit => exact .inl (congrArg Outcome.state (confirm_of_closed closed))
  | editCopy region text => exact .inl (editMaster_of_closed closed)
  | replaceCopy image text => exact .inl (congrArg (·.state.2) (replace_of_closed closed))

end

/-- The requests that concern the settings and the listeners tell nobody anything, and the ranges stay
as they are unless the projection is disposed. -/
theorem request_of_casual {request : Request} (casual : ¬ request.Ranges) :
    let after := (session.request notify master request).1
    after.journal = session.journal ∧ after.projection.broken = session.projection.broken ∧
      (session.projection.disposed = true → after.projection.disposed = true) ∧
      (after.projection.disposed = false → after.projection.layout = session.projection.layout ∧
        after.projection.text = session.projection.text) := by
  cases request with
  | add region | remove region | reset region => exact absurd trivial casual
  | setAutoExpand on | subscribe | unsubscribe listener => exact ⟨rfl, rfl, id, fun _ => ⟨rfl, rfl⟩⟩
  | dispose =>
    change session.journal = _ ∧ session.projection.dispose.broken = _ ∧ _ ∧ _
    unfold request update Projection.dispose
    split
    · next disposed => exact ⟨rfl, rfl, id, fun live => nomatch disposed.symm.trans live⟩
    · exact ⟨rfl, rfl, fun _ => rfl, nofun⟩

section
variable (live : session.projection.disposed = false) (broken : session.projection.broken = true)

include live broken

theorem anticipate_of_unusable :
    anticipate notify master edit session = .fail session (.inconsistent .unusable) := by
  rw [anticipate_of_closed (Projection.closed?_of_broken live broken), live]
  rfl

theorem confirm_of_unusable :
    confirm notify master edit session = .fail session (.inconsistent .unusable) := by
  rw [confirm_of_closed (Projection.closed?_of_broken live broken), live]
  rfl

theorem editMaster_of_unusable (inside : region.Inside master.length) :
    (editMaster notify master region text session).error = some (.inconsistent .unusable) := by
  simp only [editMaster, Master.prepare_eq inside, anticipate_of_unusable live broken, Outcome.map,
    Outcome.fail, Outcome.andThen]

end

end Session

end TextProjection
