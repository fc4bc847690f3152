import TextProjection.Proofs.Interval.Covers
import TextProjection.Proofs.Text.Pick
import TextProjection.Projection.Follow

/-! Which master characters a layout shows. Fragments in order show disjoint parts, so
their lengths add up, and the text under them consists of the characters that are shown.
-/

set_option autoImplicit false

namespace TextProjection

namespace Layout

def ShownBy (pairs : List Pair) (position : Nat) : Prop :=
  ∃ pair ∈ pairs, pair.fragment.Covers position

instance (pairs : List Pair) : DecidablePred (ShownBy pairs) :=
  fun position => inferInstanceAs (Decidable (∃ pair ∈ pairs, pair.fragment.Covers position))

/-- The layout shows the master character at the position. -/
def Shows (layout : Layout) : Nat → Prop := ShownBy layout.pairs

instance (layout : Layout) : DecidablePred layout.Shows :=
  inferInstanceAs (DecidablePred (ShownBy layout.pairs))

@[simp] theorem shownBy_nil (position : Nat) : ¬ ShownBy [] position := by
  simp [ShownBy]

@[simp] theorem shownBy_cons (pair : Pair) (rest : List Pair) (position : Nat) :
    ShownBy (pair :: rest) position ↔ pair.fragment.Covers position ∨ ShownBy rest position := by
  simp [ShownBy]

@[simp] theorem shownBy_append (front back : List Pair) (position : Nat) :
    ShownBy (front ++ back) position ↔ ShownBy front position ∨ ShownBy back position := by
  simp [ShownBy, or_and_right, exists_or]

/-- Number of shown characters below an offset. -/
def rank (layout : Layout) (offset : Nat) : Nat := Nat.count layout.Shows offset

theorem rank_eq_of_hidden {layout : Layout} {low high : Nat} (order : low ≤ high)
    (hidden : ∀ position, low ≤ position → position < high → ¬ layout.Shows position) :
    layout.rank high = layout.rank low := by
  obtain ⟨gained, rfl⟩ := Nat.exists_eq_add_of_le order
  have none : Nat.count (fun i => layout.Shows (low + i)) gained = 0 :=
    Nat.count_of_forall_not fun i below =>
      hidden _ (Nat.le_add_right _ _) (Nat.add_lt_add_left below _)
  rw [rank, rank, Nat.count_add, none, Nat.add_zero]

end Layout

namespace Layout

def Ordered (pairs : List Pair) : Prop :=
  (∀ pair ∈ pairs, pair.fragment.deleted = false) ∧
    pairs.Pairwise fun left right => left.fragment.stop ≤ right.fragment.offset

theorem ordered_cons {pair : Pair} {rest : List Pair} :
    Ordered (pair :: rest) ↔ pair.fragment.deleted = false ∧
      (∀ other ∈ rest, pair.fragment.stop ≤ other.fragment.offset) ∧ Ordered rest := by
  simp only [Ordered, List.forall_mem_cons, List.pairwise_cons]
  tauto

theorem ordered_append {front back : List Pair} :
    Ordered (front ++ back) ↔ Ordered front ∧ Ordered back ∧
      ∀ left ∈ front, ∀ right ∈ back, left.fragment.stop ≤ right.fragment.offset := by
  simp only [Ordered, List.forall_mem_append, List.pairwise_append]
  tauto

theorem not_shownBy_of_le {pairs : List Pair} {position offset : Nat}
    (after : ∀ pair ∈ pairs, offset ≤ pair.fragment.offset) (below : position < offset) :
    ¬ ShownBy pairs position := by
  rintro ⟨pair, member, -, start, -⟩
  have := after pair member
  omega

theorem not_shownBy_of_stop_le {pairs : List Pair} {position offset : Nat}
    (before : ∀ pair ∈ pairs, pair.fragment.stop ≤ offset) (above : offset ≤ position) :
    ¬ ShownBy pairs position := by
  rintro ⟨pair, member, -, -, stop⟩
  have := before pair member
  omega

theorem count_shownBy_cons {pair : Pair} {rest : List Pair} (ordered : Ordered (pair :: rest))
    (n : Nat) :
    Nat.count (ShownBy (pair :: rest)) n =
      min (n - pair.fragment.offset) pair.fragment.length + Nat.count (ShownBy rest) n := by
  obtain ⟨live, after, -⟩ := ordered_cons.mp ordered
  have split : Nat.count (ShownBy (pair :: rest)) n =
      Nat.count (fun i => pair.fragment.Covers i ∨ ShownBy rest i) n :=
    count_congr fun i _ => shownBy_cons pair rest i
  rw [split, count_or fun i _ covered => not_shownBy_of_le after covered.2.2,
    Interval.count_covers live]

theorem count_shownBy_append {front back : List Pair} (ordered : Ordered (front ++ back)) (n : Nat) :
    Nat.count (ShownBy (front ++ back)) n =
      Nat.count (ShownBy front) n + Nat.count (ShownBy back) n := by
  obtain ⟨-, -, across⟩ := ordered_append.mp ordered
  rw [← count_or]
  · exact count_congr fun i _ => shownBy_append front back i
  · rintro i - ⟨left, inFront, -, -, below⟩ ⟨right, inBack, -, above, -⟩
    have := across left inFront right inBack
    omega

def extent : List Pair → Nat
  | [] => 0
  | pair :: rest => pair.fragment.length + extent rest

@[simp] theorem extent_nil : extent [] = 0 := rfl

@[simp] theorem extent_cons (pair : Pair) (rest : List Pair) :
    extent (pair :: rest) = pair.fragment.length + extent rest := rfl

@[simp] theorem extent_append (front back : List Pair) :
    extent (front ++ back) = extent front + extent back := by
  induction front with
  | nil => simp
  | cons pair rest ih => rw [List.cons_append, extent_cons, extent_cons, ih, Nat.add_assoc]

theorem count_shownBy_of_stop_le {pairs : List Pair} {n : Nat} (ordered : Ordered pairs)
    (before : ∀ pair ∈ pairs, pair.fragment.stop ≤ n) :
    Nat.count (ShownBy pairs) n = extent pairs := by
  induction pairs with
  | nil => simp [Nat.count_iff_forall_not]
  | cons pair rest ih =>
    have first := before pair (List.mem_cons_self ..)
    have tail := ih (ordered_cons.mp ordered).2.2 fun other member =>
      before other (List.mem_cons_of_mem _ member)
    rw [count_shownBy_cons ordered, tail, extent_cons]
    unfold Interval.stop at first
    omega

theorem count_shownBy_of_le {pairs : List Pair} {n : Nat}
    (after : ∀ pair ∈ pairs, n ≤ pair.fragment.offset) : Nat.count (ShownBy pairs) n = 0 :=
  Nat.count_of_forall_not fun _ below => not_shownBy_of_le after below

theorem count_shownBy_le {pairs : List Pair} {size : Nat} (ordered : Ordered pairs)
    (inside : ∀ pair ∈ pairs, pair.fragment.stop ≤ size) (n : Nat) :
    Nat.count (ShownBy pairs) n ≤ extent pairs := by
  rw [← count_shownBy_of_stop_le (n := max n size) ordered fun pair member =>
    Nat.le_trans (inside pair member) (Nat.le_max_right ..)]
  exact Nat.count_monotone _ (Nat.le_max_left ..)

theorem extent_le {pairs : List Pair} {size : Nat} (ordered : Ordered pairs)
    (inside : ∀ pair ∈ pairs, pair.fragment.stop ≤ size) : extent pairs ≤ size := by
  rw [← count_shownBy_of_stop_le ordered inside]
  exact Nat.count_le _

end Layout

namespace Text

theorem pick_covers {text : Text} {region : Region} (inside : region.Inside text.length) :
    pick region.Covers text = text.slice region := by
  obtain ⟨front, middle, back, rfl, start, length⟩ := exists_parts inside
  obtain rfl : region = ⟨front.length, middle.length⟩ := by rw [start, length]
  have slice : (front ++ middle ++ back).slice ⟨front.length, middle.length⟩ = middle := by
    simp [Text.slice]
  rw [slice, pick_append, pick_append, pick_of_forall_not, pick_of_forall, pick_of_forall_not]
  · simp
  all_goals
    intro i below
    simp only [Region.Covers, Region.stop, List.length_append]
    omega

theorem pick_or {p q : Nat → Prop} [DecidablePred p] [DecidablePred q] {offset : Nat} {text : Text}
    (low : ∀ i, p i → i < offset) (high : ∀ i, q i → offset ≤ i) :
    pick (fun i => p i ∨ q i) text = pick p text ++ pick q text := by
  induction text generalizing p q offset with
  | nil => rfl
  | cons c rest ih =>
    have below (i : Nat) (found : p (i + 1)) : i < offset - 1 := by
      have := low _ found
      omega
    have above (i : Nat) (found : q (i + 1)) : offset - 1 ≤ i := by
      have := high _ found
      omega
    have tail := ih below above
    by_cases first : p 0
    · have second : ¬ q 0 := fun found => by
        have := low _ first
        have := high _ found
        omega
      simp [pick, first, second, tail]
    · by_cases second : q 0
      · have none : pick (fun i => p (i + 1)) rest = [] :=
          pick_of_forall_not fun i _ found => by
            have := low _ found
            have := high _ second
            omega
        simp [pick, first, second, tail, none]
      · simp [pick, first, second, tail]

end Text

namespace Layout

/-- The text under fragments in order consists of the characters that they show. -/
theorem flatMap_slice_eq_pick {pairs : List Pair} {text : Text} (ordered : Ordered pairs)
    (inside : ∀ pair ∈ pairs, pair.fragment.stop ≤ text.length) :
    (pairs.map (·.fragment.region)).flatMap text.slice = Text.pick (ShownBy pairs) text := by
  induction pairs with
  | nil => simp [Text.pick_of_forall_not]
  | cons pair rest ih =>
    obtain ⟨live, after, tailOrdered⟩ := ordered_cons.mp ordered
    have tail := ih tailOrdered fun other member => inside other (List.mem_cons_of_mem _ member)
    have fits : pair.fragment.region.Inside text.length :=
      Region.inside_iff.mpr (inside pair (List.mem_cons_self ..))
    have covered : Text.pick pair.fragment.Covers text = text.slice pair.fragment.region := by
      rw [← Text.pick_covers fits]
      exact Text.pick_congr fun i _ => by
        simp [Interval.Covers, Region.Covers, live, Interval.region, Interval.stop, Region.stop]
    have split : Text.pick (ShownBy (pair :: rest)) text =
        Text.pick (fun i => pair.fragment.Covers i ∨ ShownBy rest i) text :=
      Text.pick_congr fun i _ => shownBy_cons pair rest i
    have joined : Text.pick (fun i => pair.fragment.Covers i ∨ ShownBy rest i) text =
        Text.pick pair.fragment.Covers text ++ Text.pick (ShownBy rest) text :=
      Text.pick_or (fun _ found => found.2.2) fun i shown =>
        Nat.le_of_not_lt fun below => not_shownBy_of_le after below shown
    rw [split, joined, covered, List.map_cons, List.flatMap_cons, tail]

end Layout

end TextProjection
