import TextProjection.Layout.Normal
import TextProjection.Proofs.Layout.WellFormed

/-! The normal form of a layout is well-formed and shows what the layout showed, as long as
the fragments that show something follow one another.
-/

set_option autoImplicit false

namespace TextProjection

def Pair.showsText (pair : Pair) : Bool := !pair.deleted && 0 < pair.fragment.length

namespace Layout

/-- What makes pairs well-formed once their segments are laid out. -/
structure Normal (pairs : List Pair) (size : Nat) : Prop where
  live : ∀ pair ∈ pairs, pair.fragment.deleted = false
  apart : pairs.Pairwise fun left right => left.fragment.stop < right.fragment.offset
  solid : 2 ≤ pairs.length → ∀ pair ∈ pairs, 0 < pair.fragment.length
  inside : ∀ pair ∈ pairs, pair.fragment.stop ≤ size

/-! Laying out -/

theorem tiles_tile {pairs : List Pair} {start : Nat}
    (live : ∀ pair ∈ pairs, pair.fragment.deleted = false) : Tiles start (tile start pairs) := by
  induction pairs generalizing start with
  | nil => trivial
  | cons pair rest ih =>
    have alive : pair.deleted = false := live pair (List.mem_cons_self ..)
    simp only [tile, alive, Bool.false_eq_true, if_false, Tiles, true_and]
    exact ih fun other member => live other (List.mem_cons_of_mem _ member)

theorem forall_fragment_congr {left right : List Pair}
    (same : left.map (·.fragment) = right.map (·.fragment)) (P : Interval → Prop)
    (holds : ∀ pair ∈ left, P pair.fragment) : ∀ pair ∈ right, P pair.fragment :=
  List.forall_mem_map.mp (same ▸ List.forall_mem_map.mpr holds)

theorem shownBy_congr {left right : List Pair}
    (same : left.map (·.fragment) = right.map (·.fragment)) (position : Nat) :
    ShownBy left position ↔ ShownBy right position := by
  have view (pairs : List Pair) : ShownBy pairs position ↔
      ∃ fragment ∈ pairs.map (·.fragment), fragment.Covers position := by
    simp [ShownBy]
  rw [view, view, same]

theorem shows_layOut (layout : Layout) (position : Nat) :
    layout.layOut.Shows position ↔ layout.Shows position :=
  shownBy_congr (map_fragment_tile 0 layout.pairs) position

theorem Normal.congr {left right : List Pair} {size : Nat}
    (same : left.map (·.fragment) = right.map (·.fragment)) (normal : Normal left size) :
    Normal right size := by
  have all := forall_fragment_congr same
  have length : left.length = right.length := by simpa using congrArg List.length same
  refine ⟨all (·.deleted = false) normal.live, ?_,
    fun several => all (0 < ·.length) (normal.solid (length ▸ several)),
    all (·.stop ≤ size) normal.inside⟩
  have view (pairs : List Pair) :
      pairs.Pairwise (fun left right => left.fragment.stop < right.fragment.offset) ↔
        (pairs.map (·.fragment)).Pairwise fun left right => left.stop < right.offset := by
    rw [List.pairwise_map]
  exact (view right).mpr (same ▸ (view left).mp normal.apart)

theorem Normal.layOut {pairs : List Pair} {size : Nat} (normal : Normal pairs size) :
    (Layout.layOut ⟨pairs⟩).WellFormed size := by
  have tiled := normal.congr (map_fragment_tile 0 pairs).symm
  exact ⟨tiled.live, tiles_tile normal.live, tiled.apart, tiled.solid, tiled.inside⟩

/-! Dropping -/

theorem sift_false (pairs : List Pair) : sift false pairs = pairs.filter Pair.showsText := by
  induction pairs with
  | nil => rfl
  | cons pair rest ih =>
    cases dead : pair.deleted with
    | true => simp [sift, Pair.showsText, dead, ih]
    | false =>
      by_cases empty : pair.fragment.length = 0
      · simp [sift, Pair.showsText, dead, empty, ih]
      · have positive := Nat.pos_of_ne_zero empty
        simp [sift, Pair.showsText, dead, empty, positive, ih]

theorem sift_true {pairs : List Pair} (blank : ∀ pair ∈ pairs, pair.showsText = false) :
    sift true pairs = (pairs.find? (!·.deleted)).toList := by
  induction pairs with
  | nil => rfl
  | cons pair rest ih =>
    obtain ⟨first, others⟩ := List.forall_mem_cons.mp blank
    have tail : rest.filter Pair.showsText = [] := by simpa using others
    cases dead : pair.deleted with
    | true => simp [sift, dead, ih others]
    | false =>
      have empty : pair.fragment.length = 0 := by simpa [Pair.showsText, dead] using first
      simp [sift, dead, empty, sift_false, tail]

theorem showsNothing_eq_true {layout : Layout} :
    layout.showsNothing = true ↔ ∀ pair ∈ layout.pairs, pair.showsText = false := by
  simp [showsNothing, Pair.showsText]

/-! Joining -/

theorem join_fragment {left right : Pair} (touch : left.fragment.stop = right.fragment.offset) :
    (left.join right).fragment =
      { left.fragment with length := left.fragment.length + right.fragment.length } := by
  have length : right.fragment.stop - left.fragment.offset =
      left.fragment.length + right.fragment.length := by
    unfold Interval.stop at *
    omega
  simp [Pair.join, length]

section Join

variable {left right : Pair} (touch : left.fragment.stop = right.fragment.offset)

include touch

theorem join_stop : (left.join right).fragment.stop = right.fragment.stop := by
  rw [join_fragment touch]
  unfold Interval.stop at *
  simp only
  omega

theorem covers_join (leftLive : left.fragment.deleted = false)
    (rightLive : right.fragment.deleted = false) (position : Nat) :
    (left.join right).fragment.Covers position ↔
      left.fragment.Covers position ∨ right.fragment.Covers position := by
  unfold Interval.Covers
  rw [join_stop touch, join_fragment touch]
  have := left.fragment.offset_le_stop
  have := right.fragment.offset_le_stop
  simp only [leftLive, rightLive, true_and]
  omega

end Join

theorem fuseFrom_spec {left : Pair} {rest : List Pair} {size : Nat}
    (ordered : Ordered (left :: rest)) (solid : ∀ pair ∈ left :: rest, 0 < pair.fragment.length)
    (inside : ∀ pair ∈ left :: rest, pair.fragment.stop ≤ size) :
    Normal (fuseFrom left rest) size ∧
      (∀ pair ∈ fuseFrom left rest, 0 < pair.fragment.length ∧
        left.fragment.offset ≤ pair.fragment.offset) ∧
      ∀ position, ShownBy (fuseFrom left rest) position ↔ ShownBy (left :: rest) position := by
  -- A joined pair takes the place of `left`, so the induction is for every first pair.
  induction rest generalizing left with
  | nil =>
    refine ⟨⟨ordered.1, List.pairwise_singleton _ _, fun _ => solid, inside⟩, ?_, fun _ => Iff.rfl⟩
    intro pair member
    obtain rfl := List.mem_singleton.mp member
    exact ⟨solid pair member, Nat.le_refl _⟩
  | cons right rest ih =>
    obtain ⟨live, after, tail⟩ := ordered_cons.mp ordered
    obtain ⟨rightLive, rightAfter, rightTail⟩ := ordered_cons.mp tail
    have limit := inside left (List.mem_cons_self ..)
    have rightLimit := inside right (by simp)
    rw [fuseFrom]
    split
    · next touch =>
      have joined := join_fragment touch
      have joinedLimit := join_stop touch
      have positive := solid left (List.mem_cons_self ..)
      have joinedOrdered : Ordered (left.join right :: rest) :=
        ordered_cons.mpr ⟨by rw [joined]; exact live, by rw [joinedLimit]; exact rightAfter, rightTail⟩
      obtain ⟨normal, bounds, same⟩ := ih joinedOrdered
        (by
          rintro pair (_ | ⟨_, member⟩)
          · rw [joined]
            exact Nat.add_pos_left positive _
          · exact solid pair (List.mem_cons_of_mem _ (List.mem_cons_of_mem _ member)))
        (by
          rintro pair (_ | ⟨_, member⟩)
          · exact joinedLimit ▸ rightLimit
          · exact inside pair (List.mem_cons_of_mem _ (List.mem_cons_of_mem _ member)))
      refine ⟨normal, fun pair member => ?_, fun position => ?_⟩
      · obtain ⟨length, offset⟩ := bounds pair member
        rw [joined] at offset
        exact ⟨length, offset⟩
      · rw [same, shownBy_cons, shownBy_cons, shownBy_cons,
          covers_join touch live rightLive, or_assoc]
    · next apart =>
      obtain ⟨normal, bounds, same⟩ := ih tail
        (fun pair member => solid pair (List.mem_cons_of_mem _ member))
        (fun pair member => inside pair (List.mem_cons_of_mem _ member))
      have gap := after right (List.mem_cons_self ..)
      have positive := solid left (List.mem_cons_self ..)
      refine ⟨⟨?_, ?_, fun _ => ?_, ?_⟩, ?_, fun position => ?_⟩
      · exact List.forall_mem_cons.mpr ⟨live, normal.live⟩
      · refine List.pairwise_cons.mpr ⟨fun pair member => ?_, normal.apart⟩
        have := (bounds pair member).2
        omega
      · exact List.forall_mem_cons.mpr ⟨positive, fun pair member => (bounds pair member).1⟩
      · exact List.forall_mem_cons.mpr ⟨limit, normal.inside⟩
      · refine List.forall_mem_cons.mpr ⟨⟨positive, Nat.le_refl _⟩, fun pair member => ?_⟩
        have := bounds pair member
        have := left.fragment.offset_le_stop
        omega
      · rw [shownBy_cons, shownBy_cons, same]

/-! Normal forms -/

theorem shownBy_filter (pairs : List Pair) (position : Nat) :
    ShownBy (pairs.filter Pair.showsText) position ↔ ShownBy pairs position := by
  constructor
  · rintro ⟨pair, member, covers⟩
    exact ⟨pair, (List.mem_filter.mp member).1, covers⟩
  · rintro ⟨pair, member, covers⟩
    refine ⟨pair, List.mem_filter.mpr ⟨member, ?_⟩, covers⟩
    obtain ⟨live, start, stop⟩ := covers
    unfold Interval.stop at stop
    simp only [Pair.showsText, Pair.deleted, live, Bool.not_false, Bool.true_and, decide_eq_true_eq]
    omega

variable {layout : Layout} {size : Nat}

theorem condense_spec (ordered : Ordered (layout.pairs.filter Pair.showsText))
    (inside : ∀ pair ∈ layout.pairs, pair.fragment.deleted = false → pair.fragment.stop ≤ size) :
    Normal layout.condense size ∧
      ∀ position, ShownBy layout.condense position ↔ layout.Shows position := by
  have filtered (position : Nat) :
      ShownBy (layout.pairs.filter Pair.showsText) position ↔ layout.Shows position :=
    shownBy_filter layout.pairs position
  cases blank : layout.showsNothing with
  | true =>
    have none := showsNothing_eq_true.mp blank
    have hidden (position : Nat) : ¬ layout.Shows position := by
      rw [← filtered, List.filter_eq_nil_iff.mpr fun pair member => by simp [none pair member]]
      exact shownBy_nil position
    rw [condense, blank, sift_true none]
    cases found : layout.pairs.find? (!·.deleted) with
    | none => exact ⟨⟨by simp [fuse], .nil, by simp [fuse], by simp [fuse]⟩, fun position => by
        simp [fuse, hidden]⟩
    | some pair =>
      -- The pair that is left is empty and shows nothing.
      have member := List.mem_of_find?_eq_some found
      have live : pair.fragment.deleted = false := by
        simpa [Pair.deleted] using List.find?_some found
      refine ⟨⟨by simpa [fuse, fuseFrom] using live, List.pairwise_singleton _ _, by
        simp [fuse, fuseFrom], by simpa [fuse, fuseFrom] using inside pair member live⟩,
        fun position => ?_⟩
      simp only [hidden, iff_false]
      rintro ⟨other, single, covers⟩
      obtain rfl : other = pair := by simpa [fuse, fuseFrom] using single
      exact hidden position ⟨other, member, covers⟩
  | false =>
    rw [condense, blank, sift_false]
    cases kept : layout.pairs.filter Pair.showsText with
    | nil =>
      refine ⟨⟨by simp [fuse], .nil, by simp [fuse], by simp [fuse]⟩, fun position => ?_⟩
      rw [← filtered, kept, fuse]
    | cons left rest =>
      rw [kept] at ordered
      have part : ∀ pair ∈ left :: rest, pair ∈ layout.pairs ∧ pair.showsText = true :=
        fun pair member => List.mem_filter.mp (kept ▸ member)
      obtain ⟨normal, -, same⟩ := fuseFrom_spec ordered
        (fun pair member => by
          have := (part pair member).2
          simp only [Pair.showsText, Bool.and_eq_true, decide_eq_true_eq] at this
          exact this.2)
        (fun pair member => inside pair (part pair member).1 (ordered.1 pair member))
      exact ⟨normal, fun position => by rw [fuse, same, ← kept, filtered]⟩

/-- The normal form is well-formed and shows the same. -/
theorem normalForm_spec (ordered : Ordered (layout.pairs.filter Pair.showsText))
    (inside : ∀ pair ∈ layout.pairs, pair.fragment.deleted = false → pair.fragment.stop ≤ size)
    {anchor : Nat} (within : anchor ≤ size) :
    (layout.normalForm (some anchor)).WellFormed size ∧
      ∀ position, (layout.normalForm (some anchor)).Shows position ↔ layout.Shows position := by
  obtain ⟨normal, same⟩ := condense_spec ordered inside
  cases left : layout.condense with
  | nil =>
    have hidden (position : Nat) : ¬ layout.Shows position := by
      rw [← same, left]
      exact shownBy_nil position
    simp only [normalForm, left]
    split
    · have single : Normal (({} : Layout).insert 0 ⟨anchor, 0, false⟩).pairs size :=
        ⟨by simp [insert], List.pairwise_singleton _ _, by simp [insert],
          by simpa [insert, Interval.stop] using within⟩
      refine ⟨single.layOut, fun position => ?_⟩
      rw [shows_layOut]
      simp only [hidden, iff_false]
      simp [Shows, insert, Interval.Covers, Interval.stop]
    · exact ⟨WellFormed.nil, fun position =>
        iff_of_false (shownBy_nil position) (hidden position)⟩
  | cons pair rest =>
    simp only [normalForm, left]
    refine ⟨(left ▸ normal).layOut, fun position => ?_⟩
    rw [shows_layOut, ← same, left, Shows]

end Layout

end TextProjection
