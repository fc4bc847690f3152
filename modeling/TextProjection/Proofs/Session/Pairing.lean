import TextProjection.Session.Dispatch

/-! Range changes of two sessions whose projections differ in their listeners at most. The same
comes of a range change in both of them, as long as telling the listeners keeps the sessions paired.
-/

set_option autoImplicit false

namespace TextProjection

variable {σ τ μ ν : Type}

/-- Two operations end the same way, in states that belong together. -/
structure Outcome.Both (paired : σ → τ → Prop) (one : Outcome σ) (other : Outcome τ) : Prop where
  error : one.error = other.error
  state : paired one.state other.state

namespace Outcome.Both

variable {paired : σ → τ → Prop} {left : σ} {right : τ} {one : Outcome σ} {other : Outcome τ}

theorem done (pair : paired left right) : Both paired (.done left) (.done right) := ⟨rfl, pair⟩

theorem fail (pair : paired left right) (error : Error) :
    Both paired (.fail left error) (.fail right error) := ⟨rfl, pair⟩

theorem andThen {next : σ → Outcome σ} {next' : τ → Outcome τ} (both : Both paired one other)
    (goes : ∀ left right, paired left right → Both paired (next left) (next' right)) :
    Both paired (one.andThen next) (other.andThen next') := by
  obtain ⟨state, error⟩ := one
  obtain ⟨state', error'⟩ := other
  obtain ⟨rfl, pair⟩ := both
  cases error with
  | none => exact goes state state' pair
  | some error => exact ⟨rfl, pair⟩

end Outcome.Both

def Request.Ranges : Request → Prop
  | .add _ | .remove _ | .reset _ => True
  | _ => False

theorem Projection.exists_carryOut (projection : Projection) (planned : Planned) :
    ∃ layout text error, ∀ listeners, { projection with listeners }.carryOut planned =
      ⟨{ projection with layout, text, listeners }, error⟩ := by
  cases shape : projection.layout.reshape planned.change.origin planned.action with
  | error fault =>
    refine ⟨projection.layout, projection.text, some (.inconsistent fault), fun listeners => ?_⟩
    simp only [carryOut, shape]
    rfl
  | ok layout =>
    cases accepted : planned.textAfter projection.text with
    | error fault =>
      refine ⟨layout.layOut, projection.text, some (.inconsistent fault), fun listeners => ?_⟩
      simp only [carryOut, shape, accepted]
      rfl
    | ok text =>
      let anchored := layout.layOut.normalForm planned.change.origin.offset
      refine ⟨anchored, text, { projection with layout := anchored, text }.checked.error,
        fun listeners => ?_⟩
      simp only [carryOut, shape, accepted]
      rfl

namespace Session

/-- Sessions that belong together: their projections differ in their listeners at most, and they still
belong together when the same is done to both and when the listeners of both are told. -/
structure Pairing (first : Notifier μ) (second : Notifier ν) (master : Master)
    (paired : Session μ → Session ν → Prop) : Prop where
  agrees : ∀ left right, paired left right →
    ∃ listeners, right.projection = { left.projection with listeners }
  change : ∀ left right layout text planned broken, paired left right →
    paired (left.update fun projection => { projection with layout, text, planned, broken })
      (right.update fun projection => { projection with layout, text, planned, broken })
  applied : ∀ left right change, paired left right →
    paired (left.record (.applied change)) (right.record (.applied change))
  tell : ∀ left right phase change, paired left right →
    paired (first master phase change left) (second master phase change right)

section

variable {first : Notifier μ} {second : Notifier ν} {master : Master}
  {paired : Session μ → Session ν → Prop} (pairing : Pairing first second master paired)
  {left : Session μ} {right : Session ν} {region : Region}

include pairing

theorem breakOnFault_both {one : Outcome (Session μ)} {other : Outcome (Session ν)}
    (both : one.Both paired other) : (breakOnFault one).Both paired (breakOnFault other) := by
  obtain ⟨state, error⟩ := one
  obtain ⟨state', error'⟩ := other
  have pair : paired state state' := both.state
  obtain rfl : error = error' := both.error
  unfold breakOnFault
  split
  · obtain ⟨listeners, same⟩ := pairing.agrees _ _ pair
    have broken := pairing.change _ _ state.projection.layout state.projection.text
      state.projection.planned true pair
    refine ⟨rfl, ?_⟩
    simp only [update, same] at broken ⊢
    exact broken
  · exact ⟨rfl, pair⟩

theorem conclude_both (pair : paired left right) :
    (conclude first master left).Both paired (conclude second master right) := by
  obtain ⟨listeners, same⟩ := pairing.agrees _ _ pair
  have announced : right.projection.planned = left.projection.planned := by rw [same]
  unfold conclude
  rw [announced]
  cases left.projection.planned with
  | none => exact .done pair
  | some planned =>
    obtain ⟨layout, text, error, carried⟩ :=
      { left.projection with planned := none }.exists_carryOut planned
    have made : (left.within fun projection =>
        { projection with planned := none }.carryOut planned).Both paired
        (right.within fun projection => { projection with planned := none }.carryOut planned) := by
      have changed := pairing.change _ _ layout text none left.projection.broken pair
      have leftMade := carried left.projection.listeners
      have rightMade := carried listeners
      simp only [update, same] at changed
      simp only [within, same, leftMade, rightMade, Outcome.map]
      exact ⟨rfl, changed⟩
    exact made.andThen fun left right pair =>
      .done (pairing.tell _ _ _ _ (pairing.applied _ _ _ pair))

theorem plan_both (pair : paired left right) (planned : Option Planned) :
    paired (left.update fun projection => { projection with planned })
      (right.update fun projection => { projection with planned }) := by
  obtain ⟨listeners, same⟩ := pairing.agrees _ _ pair
  have changed := pairing.change _ _ left.projection.layout left.projection.text planned
    left.projection.broken pair
  simp only [update, same] at changed ⊢
  exact changed

theorem undertake_both (pair : paired left right) (planned : Planned) :
    (undertake first master left planned).Both paired (undertake second master right planned) := by
  have told := pairing.tell _ _ .before planned.change (plan_both pairing pair (some planned))
  obtain ⟨listeners, same⟩ := pairing.agrees _ _ told
  have closed : (second master .before planned.change (right.update fun projection =>
      { projection with planned := some planned })).projection.closed? =
      (first master .before planned.change (left.update fun projection =>
        { projection with planned := some planned })).projection.closed? := by
    rw [same]
    rfl
  simp only [undertake, closed]
  split
  · exact .fail (plan_both pairing told none) _
  · exact conclude_both pairing told

theorem undertakePlan_both (pair : paired left right) (plan : Except Error Planned) :
    (undertakePlan first master left plan).Both paired (undertakePlan second master right plan) := by
  cases plan with
  | ok planned => exact undertake_both pairing pair planned
  | error error => exact .fail pair error

theorem fillGaps_both (edit : Option Edit) (limit rounds : Nat) (pair : paired left right) :
    (fillGaps first master region edit limit rounds left).Both paired
      (fillGaps second master region edit limit rounds right) := by
  induction rounds generalizing left right with
  | zero => exact .fail pair _
  | succ rounds ih =>
    obtain ⟨listeners, same⟩ := pairing.agrees _ _ pair
    have hidden : right.projection.layout.firstHidden? region =
        left.projection.layout.firstHidden? region := by rw [same]
    have plan (gap : Region) : right.projection.planFill master gap edit =
        left.projection.planFill master gap edit := by
      rw [same]
      rfl
    simp only [fillGaps, hidden, plan]
    split
    · exact .done pair
    · exact (undertakePlan_both pairing pair _).andThen fun _ _ => ih

theorem fill_both (edit : Option Edit) (pair : paired left right) :
    (fill first master region edit left).Both paired (fill second master region edit right) := by
  obtain ⟨listeners, same⟩ := pairing.agrees _ _ pair
  have limit : right.projection.options.bound.limit right.projection.layout.size =
      left.projection.options.bound.limit left.projection.layout.size := by rw [same]
  simp only [fill, limit]
  exact fillGaps_both pairing edit _ _ pair

theorem changeRanges_both {operation : Session μ → Outcome (Session μ)}
    {operation' : Session ν → Outcome (Session ν)}
    (refuses : left.projection.refuses? = right.projection.refuses?)
    (concluded : (conclude first master left).Both paired (conclude second master right))
    (goes : ∀ left right, paired left right → (operation left).Both paired (operation' right)) :
    (∃ error, changeRanges first master region left operation = .fail left error ∧
        changeRanges second master region right operation' = .fail right error) ∨
      (changeRanges first master region left operation).Both paired
        (changeRanges second master region right operation') := by
  unfold changeRanges
  rw [← refuses]
  cases left.projection.refuses?.or (master.outside? region) with
  | some error => exact .inl ⟨error, rfl, rfl⟩
  | none => exact .inr (breakOnFault_both pairing (concluded.andThen goes))

/-- A request that concerns ranges is refused in both sessions, or the same comes of it. -/
theorem request_both {request : Request} (ranges : request.Ranges)
    (refuses : left.projection.refuses? = right.projection.refuses?)
    (concluded : (conclude first master left).Both paired (conclude second master right)) :
    (∃ error, left.request first master request = (left, .error error) ∧
        right.request second master request = (right, .error error)) ∨
      paired (left.request first master request).1 (right.request second master request).1 ∧
        (left.request first master request).2 = (right.request second master request).2 := by
  have replied {one : Outcome (Session μ)} {other : Outcome (Session ν)}
      (ends : (∃ error, one = .fail left error ∧ other = .fail right error) ∨
        one.Both paired other) :
      (∃ error, one.reply = (left, .error error) ∧ other.reply = (right, .error error)) ∨
        paired one.reply.1 other.reply.1 ∧ one.reply.2 = other.reply.2 := by
    rcases ends with ⟨error, rfl, rfl⟩ | both
    · exact .inl ⟨error, rfl, rfl⟩
    · exact .inr ⟨both.state, by rw [Outcome.reply, Outcome.reply, both.error]⟩
  cases request with
  | add region =>
    exact replied <| changeRanges_both pairing refuses concluded fun _ _ =>
      fill_both pairing none
  | remove region =>
    refine replied <| changeRanges_both pairing refuses concluded fun left right pair => ?_
    obtain ⟨listeners, same⟩ := pairing.agrees _ _ pair
    split
    · exact .done pair
    · rw [same]
      exact undertakePlan_both pairing pair _
  | reset region =>
    refine replied <| changeRanges_both pairing refuses concluded fun left right pair => ?_
    obtain ⟨listeners, same⟩ := pairing.agrees _ _ pair
    rw [same]
    exact undertakePlan_both pairing pair _
  | setAutoExpand _ | subscribe | unsubscribe _ | dispose => exact ranges.elim

end

end Session

end TextProjection
