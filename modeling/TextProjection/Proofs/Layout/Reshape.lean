import TextProjection.Projection.Plan
import TextProjection.Proofs.Layout.Hidden
import TextProjection.Proofs.Layout.Normal

/-! How a gap is filled and a region cut out. Whatever stands at the place in question is
replaced there, and the fragments that show something stay in order.
-/

set_option autoImplicit false

namespace TextProjection

theorem insertIdx_length {α : Type} (front back : List α) (item : α) :
    (front ++ back).insertIdx front.length item = front ++ item :: back := by
  induction front with
  | nil => rfl
  | cons first rest ih => simp [ih]

namespace Layout

/-- The layout has a well-formed normal form: the fragments that show something follow one
another, inside a text of `size` characters. -/
structure Orderly (layout : Layout) (size : Nat) : Prop where
  ordered : Ordered (layout.pairs.filter Pair.showsText)
  inside : ∀ pair ∈ layout.pairs, pair.fragment.deleted = false → pair.fragment.stop ≤ size

theorem Ordered.filter {pairs : List Pair} (ordered : Ordered pairs) (keep : Pair → Bool) :
    Ordered (pairs.filter keep) :=
  ⟨fun pair member => ordered.1 pair (List.mem_filter.mp member).1, ordered.2.filter _⟩

theorem Ordered.congr {left right : List Pair} (ordered : Ordered left)
    (same : left.map (·.fragment) = right.map (·.fragment)) : Ordered right := by
  obtain ⟨live, pairwise⟩ := ordered
  constructor
  · exact forall_fragment_congr same (·.deleted = false) live
  · have view (pairs : List Pair) :
        pairs.Pairwise (fun left right => left.fragment.stop ≤ right.fragment.offset) ↔
          (pairs.map (·.fragment)).Pairwise fun left right => left.stop ≤ right.offset := by
      rw [List.pairwise_map]
    exact (view right).mpr (same ▸ (view left).mp pairwise)

namespace Orderly

variable {layout : Layout} {size : Nat} {front middle back : List Pair} {low high : Nat}

theorem layOut (orderly : layout.Orderly size) : layout.layOut.Orderly size := by
  have same : layout.layOut.pairs.map (·.fragment) = layout.pairs.map (·.fragment) :=
    map_fragment_tile 0 layout.pairs
  have filtered (pairs : List Pair) : (pairs.filter Pair.showsText).map (·.fragment) =
      (pairs.map (·.fragment)).filter fun fragment => !fragment.deleted && 0 < fragment.length := by
    rw [List.filter_map]
    rfl
  refine ⟨orderly.ordered.congr ?_, ?_⟩
  · rw [filtered, filtered, same]
  · exact forall_fragment_congr same.symm
      (fun fragment => fragment.deleted = false → fragment.stop ≤ size) orderly.inside

theorem of_middle (frontOrdered : Ordered front) (backOrdered : Ordered back)
    (before : ∀ pair ∈ front, pair.fragment.stop ≤ low)
    (after : ∀ pair ∈ back, pair.fragment.stop ≤ size ∧
      (0 < pair.fragment.length → high ≤ pair.fragment.offset))
    (ordered : Ordered (middle.filter Pair.showsText))
    (within : ∀ pair ∈ middle, pair.fragment.deleted = false →
      low ≤ pair.fragment.offset ∧ pair.fragment.stop ≤ high)
    (order : low ≤ high) (inside : high ≤ size) :
    Orderly ⟨front ++ middle ++ back⟩ size := by
  have solid {pairs : List Pair} {pair : Pair} (member : pair ∈ pairs.filter Pair.showsText) :
      pair ∈ pairs ∧ pair.fragment.deleted = false ∧ 0 < pair.fragment.length := by
    obtain ⟨member, shows⟩ := List.mem_filter.mp member
    simp only [Pair.showsText, Pair.deleted, Bool.and_eq_true, Bool.not_eq_true',
      decide_eq_true_eq] at shows
    exact ⟨member, shows⟩
  constructor
  · simp only [List.filter_append]
    refine ordered_append.mpr ⟨ordered_append.mpr ⟨frontOrdered.filter _, ordered, ?_⟩,
      backOrdered.filter _, ?_⟩
    · intro left leftMember right rightMember
      obtain ⟨rightIn, live, -⟩ := solid rightMember
      have := before left (solid leftMember).1
      have := within right rightIn live
      omega
    · intro left leftMember right rightMember
      obtain ⟨rightIn, -, positive⟩ := solid rightMember
      have reach := (after right rightIn).2 positive
      rcases List.mem_append.mp leftMember with inFront | inMiddle
      · have := before left (solid inFront).1
        omega
      · obtain ⟨leftIn, live, -⟩ := solid inMiddle
        have := within left leftIn live
        omega
  · intro pair member live
    rcases List.mem_append.mp member with member | member
    · rcases List.mem_append.mp member with member | member
      · have := before pair member
        omega
      · have := within pair member live
        omega
    · exact (after pair member).1

end Orderly

/-! Filling a gap -/

structure IsGap (layout : Layout) (size : Nat) (gap : Region) : Prop where
  nonempty : 0 < gap.length
  inside : gap.stop ≤ size
  hidden : ∀ position, gap.Covers position → ¬ layout.Shows position

namespace IsGap

variable {layout : Layout} {size : Nat} {gap : Region}

/-- A gap splits the pairs into those before it and those from its start on. Of the latter
only an empty one starts before the gap ends. -/
theorem exists_split (isGap : layout.IsGap size gap) (wf : layout.WellFormed size) :
    ∃ front back, layout.pairs = front ++ back ∧ layout.firstFrom gap.offset = front.length ∧
      (∀ pair ∈ front, pair.fragment.offset < gap.offset ∧ pair.fragment.stop ≤ gap.offset) ∧
      ∀ pair ∈ back, gap.offset ≤ pair.fragment.offset ∧
        (0 < pair.fragment.length → gap.stop ≤ pair.fragment.offset) := by
  obtain ⟨front, back, split, past, reaches⟩ := wf.exists_split_from gap.offset
  have member {pair : Pair} (found : pair ∈ back) : pair ∈ layout.pairs := by
    rw [split]
    exact List.mem_append_right _ found
  have room : gap.offset < gap.stop := Nat.lt_add_of_pos_right isGap.nonempty
  have starts : ∀ pair ∈ back, gap.offset ≤ pair.fragment.offset := by
    intro pair found
    -- A fragment that reached into the gap from the left would show its first character.
    by_contra early
    have inner := (reaches pair found).resolve_left early
    exact isGap.hidden gap.offset ⟨Nat.le_refl _, room⟩
      ⟨pair, member found, wf.live pair (member found), by omega, inner⟩
  refine ⟨front, back, split, firstFrom_eq split (fun pair found => (past pair found).1) starts,
    past, fun pair found => ⟨starts pair found, fun solid => ?_⟩⟩
  by_contra early
  exact isGap.hidden pair.fragment.offset ⟨starts pair found, by omega⟩
    ⟨pair, member found, wf.live pair (member found), Nat.le_refl _,
      Nat.lt_add_of_pos_right solid⟩

end IsGap

/-- The layout is one that shows a gap of another one too, and has a normal form. -/
structure Fills (before : Layout) (size : Nat) (gap : Region) (after : Layout) : Prop where
  orderly : after.Orderly size
  shows : ∀ position, after.Shows position ↔ before.Shows position ∨ gap.Covers position

section
variable {layout : Layout} {size : Nat} {gap : Region} {front back : List Pair}

theorem Fills.of_middle {middle : List Pair} {pair : Pair} (wf : layout.WellFormed size)
    (split : layout.pairs = front ++ middle ++ back)
    (before : ∀ other ∈ front, other.fragment.stop ≤ pair.fragment.offset)
    (after : ∀ other ∈ back, 0 < other.fragment.length →
      pair.fragment.stop ≤ other.fragment.offset)
    (inside : pair.fragment.stop ≤ size)
    (live : pair.fragment.deleted = false)
    (covers : ∀ position, pair.fragment.Covers position ↔
      ShownBy middle position ∨ gap.Covers position) :
    Fills layout size gap ⟨front ++ [pair] ++ back⟩ := by
  have ordered := wf.ordered
  rw [split, ordered_append, ordered_append] at ordered
  refine ⟨.of_middle ordered.1.1 ordered.2.1 before (fun other member =>
      ⟨wf.inside other (by simp [split, member]), after other member⟩) ?_ ?_
      pair.fragment.offset_le_stop inside, fun position => ?_⟩
  · have single : Ordered [pair] := ⟨by simpa using live, List.pairwise_singleton _ _⟩
    exact single.filter _
  · rintro other (_ | ⟨_, ⟨⟩⟩) -
    exact ⟨Nat.le_refl _, Nat.le_refl _⟩
  · simp only [Shows, split, shownBy_append, shownBy_cons, shownBy_nil, or_false, covers]
    tauto

theorem fills_bridge {left right : Pair} (wf : layout.WellFormed size)
    (split : layout.pairs = front ++ left :: right :: back)
    (leftTouches : left.fragment.stop = gap.offset)
    (rightTouches : right.fragment.offset = gap.stop) :
    ∃ after, layout.reshape gap (.bridge front.length) = .ok after ∧
      Fills layout size gap after := by
  have regroup : layout.pairs = front ++ [left, right] ++ back := by simp [split]
  have apart : layout.pairs = (front ++ [left]) ++ right :: back := by simp [split]
  have leftLive := wf.live left (by simp [split])
  have rightLive := wf.live right (by simp [split])
  have rightInside := wf.inside right (by simp [split])
  have order : gap.offset ≤ gap.stop := Nat.le_add_right _ _
  have leftOrder := left.fragment.offset_le_stop
  have rightOrder := right.fragment.offset_le_stop
  have limit : (left.join right).fragment.stop = right.fragment.stop := by
    change left.fragment.offset + (right.fragment.stop - left.fragment.offset) = _
    omega
  have joined : layout.join? front.length = some ⟨front ++ [left.join right] ++ back⟩ := by
    simp [join?, split, List.eraseIdx_append]
  have shape : layout.reshape gap (.bridge front.length) =
      .ok ⟨front ++ [left.join right] ++ back⟩ := by
    simp only [reshape, joined, Option.elim_some]
  refine ⟨_, shape, .of_middle wf regroup ?_ ?_ ?_ leftLive ?_⟩
  · intro other member
    exact Nat.le_of_lt (wf.before split other member)
  · intro other member _
    rw [limit]
    exact Nat.le_of_lt (wf.after apart other member)
  · rw [limit]
    exact rightInside
  · intro position
    have start : (left.join right).fragment.offset = left.fragment.offset := rfl
    have live : (left.join right).fragment.deleted = false := leftLive
    simp only [Interval.Covers, shownBy_cons, shownBy_nil, Region.Covers, limit, start, live,
      leftLive, rightLive, true_and, or_false]
    omega

theorem modifyFragment?_eq {pair : Pair} (split : layout.pairs = front ++ pair :: back)
    (change : Interval → Interval) :
    layout.modifyFragment? front.length change =
      some ⟨front ++ [{ pair with fragment := change pair.fragment }] ++ back⟩ := by
  simp [modifyFragment?, split]

theorem fills_append {pair : Pair} (wf : layout.WellFormed size)
    (split : layout.pairs = front ++ pair :: back) (inside : gap.stop ≤ size)
    (touches : pair.fragment.stop = gap.offset)
    (after : ∀ other ∈ back, 0 < other.fragment.length → gap.stop ≤ other.fragment.offset) :
    ∃ after, layout.reshape gap (.append front.length) = .ok after ∧
      Fills layout size gap after := by
  have regroup : layout.pairs = front ++ [pair] ++ back := by simp [split]
  have live := wf.live pair (by simp [split])
  have order : gap.offset ≤ gap.stop := Nat.le_add_right _ _
  have start := pair.fragment.offset_le_stop
  have grown : Interval.stop ⟨pair.fragment.offset, gap.stop - pair.fragment.offset,
      pair.fragment.deleted⟩ = gap.stop :=
    Nat.add_sub_of_le (show pair.fragment.offset ≤ gap.stop by omega)
  have shape := congrArg (·.elim (Except.error (Fault.noPair front.length)) Except.ok)
    (modifyFragment?_eq split fun fragment =>
      { fragment with length := gap.stop - fragment.offset })
  refine ⟨_, shape, .of_middle wf regroup ?_ ?_ ?_ live ?_⟩
  · intro other member
    exact Nat.le_of_lt (wf.before split other member)
  · simpa only [grown] using after
  · simpa only [grown] using inside
  · intro position
    rw [live] at grown
    simp only [Interval.Covers, shownBy_cons, shownBy_nil, Region.Covers, live, true_and, or_false,
      grown]
    omega

theorem fills_prepend {pair : Pair} (wf : layout.WellFormed size)
    (split : layout.pairs = front ++ pair :: back)
    (before : ∀ other ∈ front, other.fragment.stop ≤ gap.offset)
    (touches : pair.fragment.offset = gap.stop) :
    ∃ after, layout.reshape gap (.prepend front.length) = .ok after ∧
      Fills layout size gap after := by
  have regroup : layout.pairs = front ++ [pair] ++ back := by simp [split]
  have live := wf.live pair (by simp [split])
  have inside := wf.inside pair (by simp [split])
  have gapLimit : gap.stop = gap.offset + gap.length := rfl
  have pairLimit : pair.fragment.stop = pair.fragment.offset + pair.fragment.length := rfl
  have shape := congrArg (·.elim (Except.error (Fault.noPair front.length)) Except.ok)
    (modifyFragment?_eq split fun fragment =>
      { fragment with
        offset := gap.offset
        length := fragment.length + gap.length })
  refine ⟨_, shape, .of_middle wf regroup before ?_ ?_ live ?_⟩
  · intro other member _
    have apart := wf.after split other member
    simp only [Interval.stop] at apart ⊢
    omega
  · simp only [Interval.stop] at inside ⊢
    omega
  · intro position
    simp only [Interval.Covers, shownBy_cons, shownBy_nil, Region.Covers, live, true_and, or_false]
    simp only [Interval.stop] at pairLimit ⊢
    omega

theorem fills_insert (wf : layout.WellFormed size) (split : layout.pairs = front ++ back)
    (inside : gap.stop ≤ size)
    (before : ∀ other ∈ front, other.fragment.stop ≤ gap.offset)
    (after : ∀ other ∈ back, 0 < other.fragment.length → gap.stop ≤ other.fragment.offset) :
    ∃ after, layout.reshape gap (.insert front.length) = .ok after ∧
      Fills layout size gap after := by
  have regroup : layout.pairs = front ++ [] ++ back := by simp [split]
  have inserted : layout.insert front.length ⟨gap.offset, gap.length, false⟩ =
      ⟨front ++ [⟨⟨gap.offset, gap.length, false⟩,
        ⟨layout.segmentStart front.length, gap.length, false⟩⟩] ++ back⟩ := by
    simp [insert, split, insertIdx_length]
  refine ⟨_, congrArg Except.ok inserted,
    .of_middle wf regroup before after inside rfl fun position => ?_⟩
  simp only [shownBy_nil, false_or, Interval.Covers, true_and]
  exact Iff.rfl

end

end Layout

def Action.Fills : Action → Prop
  | .cut _ => False
  | .reset => False
  | _ => True

namespace Layout

namespace IsGap

variable {layout : Layout} {size : Nat} {gap : Region} {front back : List Pair}

/-- The fragment that a gap is added to at its end, by its index: the one before the gap if it
reaches up to it, or else an empty one where the gap starts. -/
def leftOf? (gap : Region) (front back : List Pair) : Option Nat :=
  if front.getLast?.any (·.fragment.stop == gap.offset) then some (front.length - 1)
  else if back.head?.any (·.fragment.offset == gap.offset) then some front.length
  else none

theorem fillAction?_eq (isGap : layout.IsGap size gap)
    (split : layout.pairs = front ++ back) (first : layout.firstFrom gap.offset = front.length)
    (past : ∀ pair ∈ front, pair.fragment.offset < gap.offset ∧ pair.fragment.stop ≤ gap.offset)
    (ahead : ∀ pair ∈ back, gap.offset ≤ pair.fragment.offset ∧
      (0 < pair.fragment.length → gap.stop ≤ pair.fragment.offset)) :
    layout.fillAction? gap = some
      (if back.head?.any (·.fragment.offset == gap.stop) then
        (leftOf? gap front back).elim (.prepend front.length) .bridge
      else (leftOf? gap front back).elim (.insert front.length) .append) := by
  have room : gap.offset < gap.stop := Nat.lt_add_of_pos_right isGap.nonempty
  have next : layout.pairs[front.length]?.map (·.fragment) = back.head?.map (·.fragment) := by
    rw [split, List.getElem?_append_right (Nat.le_refl _), Nat.sub_self, List.head?_eq_getElem?]
  have clear : (back.head?.map (·.fragment)).any (fun fragment => 0 < fragment.length &&
      (fragment.offset == gap.offset || fragment.offset < gap.stop)) = false := by
    cases back with
    | nil => rfl
    | cons right rest =>
      have := ahead right (List.mem_cons_self ..)
      simp only [List.head?_cons, Option.map_some, Option.any_some, Bool.and_eq_false_iff,
        decide_eq_false_iff_not, Bool.or_eq_false_iff, beq_eq_false_iff_ne]
      omega
  have previous : (if 0 < front.length then
      layout.pairs[front.length - 1]?.map (·.fragment) else none) =
        front.getLast?.map (·.fragment) := by
    rcases Nat.eq_zero_or_pos front.length with none | some
    · simp [List.eq_nil_of_length_eq_zero none]
    · rw [if_pos some, split, List.getElem?_append_left (by omega), List.getLast?_eq_getElem?]
  have outside : (front.getLast?.map (·.fragment)).any (·.contains gap.offset) = false := by
    cases found : front.getLast? with
    | none => rfl
    | some last =>
      have member := List.mem_of_getLast? found
      simp [Interval.contains, (past last member).2]
  have touches : (front.getLast?.map (·.fragment)).any (·.stop == gap.offset) =
      front.getLast?.any (·.fragment.stop == gap.offset) := by
    cases found : front.getLast? with
    | none => rfl
    | some last => simp
  simp only [fillAction?, first, next, previous, clear, outside, touches, leftOf?,
    Bool.false_eq_true, if_false]
  cases back.head? <;>
    simp only [Option.map_none, Option.map_some, Option.any_none, Option.any_some,
      Bool.false_eq_true, if_false] <;>
    split_ifs <;> rfl

theorem leftOf?_cases (isGap : layout.IsGap size gap) (wf : layout.WellFormed size)
    (split : layout.pairs = front ++ back)
    (after : ∀ pair ∈ back, 0 < pair.fragment.length → gap.stop ≤ pair.fragment.offset) :
    leftOf? gap front back = none ∨
      (∃ init last, front = init ++ [last] ∧ last.fragment.stop = gap.offset ∧
        leftOf? gap front back = some init.length) ∨
      ∃ pair, front = [] ∧ back = [pair] ∧ pair.fragment.offset = gap.offset ∧
        pair.fragment.stop = gap.offset ∧ leftOf? gap front back = some 0 := by
  have room : gap.offset < gap.stop := Nat.lt_add_of_pos_right isGap.nonempty
  unfold leftOf?
  split_ifs with behind starts
  · obtain ⟨last, found, touches⟩ := (Option.any_eq_true _ _).mp behind
    obtain ⟨init, rfl⟩ := List.getLast?_eq_some_iff.mp found
    exact .inr (.inl ⟨init, last, rfl, by simpa using touches, by simp⟩)
  · obtain ⟨pair, found, touches⟩ := (Option.any_eq_true _ _).mp starts
    obtain ⟨rest, rfl⟩ := List.head?_eq_some_iff.mp found
    have start : pair.fragment.offset = gap.offset := by simpa using touches
    have empty : pair.fragment.length = 0 := by
      have := after pair (List.mem_cons_self ..)
      omega
    have alone : layout.pairs.length < 2 := by
      by_contra several
      have := wf.solid (Nat.le_of_not_lt several) pair (by simp [split])
      omega
    rw [split, List.length_append, List.length_cons] at alone
    obtain rfl : front = [] := List.eq_nil_of_length_eq_zero (by omega)
    obtain rfl : rest = [] := List.eq_nil_of_length_eq_zero (by omega)
    refine .inr (.inr ⟨pair, rfl, rfl, start, ?_, rfl⟩)
    rw [Interval.stop, empty, start, Nat.add_zero]
  · exact .inl rfl

theorem exists_fill (isGap : layout.IsGap size gap) (wf : layout.WellFormed size) :
    ∃ action after, layout.fillAction? gap = some action ∧ action.Fills ∧
      layout.reshape gap action = .ok after ∧ Layout.Fills layout size gap after := by
  obtain ⟨front, back, split, first, past, ahead⟩ := isGap.exists_split wf
  have inside := isGap.inside
  have before : ∀ pair ∈ front, pair.fragment.stop ≤ gap.offset :=
    fun pair member => (past pair member).2
  have after : ∀ pair ∈ back, 0 < pair.fragment.length → gap.stop ≤ pair.fragment.offset :=
    fun pair member => (ahead pair member).2
  have action := isGap.fillAction?_eq split first past ahead
  -- Five actions in all: the gap touches a fragment on its left or not, and on its right or not;
  -- an empty fragment at its start has no right neighbour.
  by_cases next : back.head?.any (·.fragment.offset == gap.stop) = true
  · obtain ⟨right, found, touches⟩ := (Option.any_eq_true _ _).mp next
    obtain ⟨rest, rfl⟩ := List.head?_eq_some_iff.mp found
    have touches : right.fragment.offset = gap.stop := by simpa using touches
    rw [if_pos next] at action
    rcases isGap.leftOf?_cases wf split after with left | ⟨init, last, rfl, behind, left⟩ |
      ⟨pair, -, alone, start, -⟩
    · obtain ⟨result, shape, fills⟩ := fills_prepend wf split before touches
      rw [left] at action
      exact ⟨_, result, action, trivial, shape, fills⟩
    · have regroup : layout.pairs = init ++ last :: right :: rest := by simp [split]
      obtain ⟨result, shape, fills⟩ := fills_bridge wf regroup behind touches
      rw [left] at action
      exact ⟨_, result, action, trivial, shape, fills⟩
    · obtain ⟨rfl, -⟩ := List.cons.inj alone
      have room : gap.offset < gap.stop := Nat.lt_add_of_pos_right isGap.nonempty
      omega
  · rw [if_neg next] at action
    rcases isGap.leftOf?_cases wf split after with left | ⟨init, last, rfl, behind, left⟩ |
      ⟨pair, rfl, rfl, -, limit, left⟩
    · obtain ⟨result, shape, fills⟩ := fills_insert wf split inside before after
      rw [left] at action
      exact ⟨_, result, action, trivial, shape, fills⟩
    · have regroup : layout.pairs = init ++ last :: back := by simp [split]
      obtain ⟨result, shape, fills⟩ := fills_append wf regroup inside behind after
      rw [left] at action
      exact ⟨_, result, action, trivial, shape, fills⟩
    · obtain ⟨result, shape, fills⟩ := fills_append wf split inside limit nofun
      rw [left] at action
      exact ⟨_, result, action, trivial, shape, fills⟩

theorem segmentStart_eq (isGap : layout.IsGap size gap) (wf : layout.WellFormed size) :
    layout.segmentStart (layout.firstFrom gap.offset) = layout.rank gap.offset := by
  obtain ⟨front, back, split, first, past, ahead⟩ := isGap.exists_split wf
  have rank := wf.rank_between split (fun pair member => (past pair member).2)
    fun pair member => (ahead pair member).1
  rw [first, rank]
  rcases List.eq_nil_or_concat' front with rfl | ⟨init, last, rfl⟩
  · rfl
  · have regroup : layout.pairs = init ++ last :: back := by simp [split]
    have previous : layout.pairs[init.length]? = some last := by simp [regroup]
    simp only [List.length_append, List.length_singleton, segmentStart, previous, Option.elim_some,
      wf.segment_stop regroup, extent_append, extent_cons, extent_nil, Nat.add_zero]

end IsGap

/-! Cutting a region out -/

/-- The layout is one that shows all but a region of another one, and has a normal form. -/
structure Cuts (before : Layout) (size : Nat) (region : Region) (after : Layout) : Prop where
  orderly : after.Orderly size
  shows : ∀ position, after.Shows position ↔ before.Shows position ∧ ¬ region.Covers position

section
variable {layout : Layout} {size : Nat} {region : Region} {front back : List Pair} {pair : Pair}

theorem Cuts.of_middle {middle : List Pair} (wf : layout.WellFormed size)
    (split : layout.pairs = front ++ pair :: back) (start : pair.fragment.offset ≤ region.offset)
    (stop : region.stop ≤ pair.fragment.stop)
    (ordered : Ordered (middle.filter Pair.showsText))
    (within : ∀ other ∈ middle, other.fragment.deleted = false →
      pair.fragment.offset ≤ other.fragment.offset ∧ other.fragment.stop ≤ pair.fragment.stop)
    (covers : ∀ position, ShownBy middle position ↔
      pair.fragment.Covers position ∧ ¬ region.Covers position) :
    Cuts layout size region ⟨front ++ middle ++ back⟩ := by
  have whole := wf.ordered
  rw [split, ordered_append, ordered_cons] at whole
  obtain ⟨frontOrdered, ⟨-, -, backOrdered⟩, -⟩ := whole
  have before : ∀ other ∈ front, other.fragment.stop ≤ pair.fragment.offset :=
    fun other member => Nat.le_of_lt (wf.before split other member)
  have after : ∀ other ∈ back, other.fragment.stop ≤ size ∧
      (0 < other.fragment.length → pair.fragment.stop ≤ other.fragment.offset) :=
    fun other member => ⟨wf.inside other (by simp [split, member]),
      fun _ => Nat.le_of_lt (wf.after split other member)⟩
  refine ⟨.of_middle frontOrdered backOrdered before after ordered within
    pair.fragment.offset_le_stop (wf.inside pair (by simp [split])), fun position => ?_⟩
  -- The other fragments show nothing of the region.
  have frontHidden : ShownBy front position → ¬ region.Covers position := fun shown covers =>
    not_shownBy_of_stop_le before (Nat.le_trans start covers.1) shown
  have backHidden : ShownBy back position → ¬ region.Covers position := fun shown covers =>
    not_shownBy_of_le (fun other member => Nat.le_of_lt (wf.after split other member))
      (Nat.lt_of_lt_of_le covers.2 stop) shown
  simp only [Shows, split, shownBy_append, shownBy_cons, covers]
  tauto

variable (wf : layout.WellFormed size) (split : layout.pairs = front ++ pair :: back)
  (stop : region.stop ≤ pair.fragment.stop)

include wf split stop in
theorem cuts_start (flush : pair.fragment.offset = region.offset) :
    Cuts layout size region (layout.cut front.length pair region) := by
  have live := wf.live pair (by simp [split])
  have regionLimit : region.stop = region.offset + region.length := rfl
  have pairLimit : pair.fragment.stop = pair.fragment.offset + pair.fragment.length := rfl
  have shape : layout.cut front.length pair region =
      ⟨front ++ [{ pair with fragment := ⟨region.stop,
        pair.fragment.length - region.length, pair.fragment.deleted⟩ }] ++ back⟩ := by
    simp [cut, flush, split]
  rw [shape]
  refine .of_middle wf split flush.le stop ?_ ?_ fun position => ?_
  · exact Ordered.filter ⟨by simpa using live, List.pairwise_singleton _ _⟩ _
  · rintro other (_ | ⟨_, ⟨⟩⟩) -
    simp only [Interval.stop] at *
    omega
  · simp only [shownBy_cons, shownBy_nil, or_false, Interval.Covers, Region.Covers, live, true_and]
    simp only [Interval.stop] at *
    omega

include split in
theorem cut_inner_eq (start : pair.fragment.offset < region.offset) :
    ∃ left dead right, layout.cut front.length pair region =
        ⟨front ++ [left, dead, right] ++ back⟩ ∧
      left.fragment = ⟨pair.fragment.offset, region.offset - pair.fragment.offset,
        pair.fragment.deleted⟩ ∧
      dead.fragment = ⟨region.offset, region.length, true⟩ ∧
      right.fragment = ⟨region.stop, pair.fragment.stop - region.stop, false⟩ := by
  have one (first : Pair) (rest : List Pair) (item : Pair) :
      (front ++ first :: rest).insertIdx (front.length + 1) item =
        front ++ first :: item :: rest := by
    simpa using insertIdx_length (front ++ [first]) rest item
  have two (first second : Pair) (rest : List Pair) (item : Pair) :
      (front ++ first :: second :: rest).insertIdx (front.length + 2) item =
        front ++ first :: second :: item :: rest := by
    simpa using insertIdx_length (front ++ [first, second]) rest item
  simp only [cut, if_neg start.ne, insert, split,
    List.set_append_right _ _ (Nat.le_refl _), Nat.sub_self, List.set_cons_zero, one, two]
  exact ⟨_, _, _, congrArg Layout.mk (by rw [List.append_assoc]; rfl), rfl, rfl, rfl⟩

include wf split stop in
theorem cuts_inner (start : pair.fragment.offset < region.offset) :
    Cuts layout size region (layout.cut front.length pair region) := by
  obtain ⟨left, dead, right, shape, leftFragment, deadFragment, rightFragment⟩ :=
    cut_inner_eq split start
  have live := wf.live pair (by simp [split])
  have regionLimit : region.stop = region.offset + region.length := rfl
  rw [shape]
  refine .of_middle wf split (Nat.le_of_lt start) stop ?_ (fun other member alive => ?_)
    fun position => ?_
  · have hidden : dead.showsText = false := by simp [Pair.showsText, Pair.deleted, deadFragment]
    have kept : [left, dead, right].filter Pair.showsText = [left, right].filter Pair.showsText := by
      simp [List.filter_cons, hidden]
    rw [kept]
    refine Ordered.filter ⟨by simp [leftFragment, rightFragment, live], ?_⟩ _
    simp only [List.pairwise_cons, List.mem_singleton, forall_eq, leftFragment, rightFragment,
      Interval.stop]
    exact ⟨by omega, by simp⟩
  · simp only [List.mem_cons, List.not_mem_nil, or_false] at member
    rcases member with rfl | rfl | rfl
    · simp only [leftFragment, Interval.stop] at *
      omega
    · rw [deadFragment] at alive
      cases alive
    · simp only [rightFragment, Interval.stop] at *
      omega
  · simp only [shownBy_cons, shownBy_nil, or_false, Interval.Covers, Region.Covers, leftFragment,
      deadFragment, rightFragment, live, true_and, Bool.true_eq_false, false_and, false_or]
    simp only [Interval.stop] at *
    omega

include wf split stop in
theorem cuts_cut (start : pair.fragment.offset ≤ region.offset) :
    Cuts layout size region (layout.cut front.length pair region) := by
  rcases Nat.eq_or_lt_of_le start with flush | inner
  · exact cuts_start wf split stop flush
  · exact cuts_inner wf split stop inner

end

end Layout

end TextProjection
