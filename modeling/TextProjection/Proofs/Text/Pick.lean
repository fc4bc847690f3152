import Mathlib.Data.Nat.Count
import TextProjection.Text

/-! The characters of a text at chosen positions. How many positions are chosen below an
offset tells where the characters from that offset on are found among those picked.
-/

set_option autoImplicit false

namespace TextProjection

theorem count_or {p q : Nat → Prop} [DecidablePred p] [DecidablePred q] {n : Nat}
    (disjoint : ∀ i < n, p i → ¬ q i) :
    Nat.count (fun i => p i ∨ q i) n = Nat.count p n + Nat.count q n := by
  induction n with
  | zero => simp
  | succ n ih =>
    have apart := disjoint n (Nat.lt_succ_self n)
    rw [Nat.count_succ, Nat.count_succ, Nat.count_succ, ih fun i below => disjoint i (by omega)]
    by_cases left : p n <;> by_cases right : q n <;> simp_all <;> omega

theorem count_congr {p q : Nat → Prop} [DecidablePred p] [DecidablePred q] {n : Nat}
    (same : ∀ i < n, p i ↔ q i) : Nat.count p n = Nat.count q n := by
  induction n with
  | zero => simp
  | succ n ih =>
    rw [Nat.count_succ, Nat.count_succ, ih fun i below => same i (by omega)]
    simp only [same n (Nat.lt_succ_self n)]

namespace Text

def pick (keep : Nat → Prop) [DecidablePred keep] : Text → Text
  | [] => []
  | c :: rest =>
    if keep 0 then c :: pick (fun i => keep (i + 1)) rest else pick (fun i => keep (i + 1)) rest

section
variable (keep : Nat → Prop) [DecidablePred keep]

@[simp] theorem pick_nil : pick keep [] = [] := rfl

theorem length_pick (text : Text) : (pick keep text).length = Nat.count keep text.length := by
  induction text generalizing keep with
  | nil => simp
  | cons c rest ih =>
    rw [List.length_cons, Nat.count_succ', ← ih]
    by_cases first : keep 0 <;> simp [pick, first]

theorem pick_append (front back : Text) :
    pick keep (front ++ back) = pick keep front ++ pick (fun i => keep (front.length + i)) back := by
  induction front generalizing keep with
  | nil => simp
  | cons c rest ih =>
    have shift : (fun i => keep (rest.length + i + 1)) = fun i => keep ((c :: rest).length + i) := by
      funext i
      rw [List.length_cons, Nat.add_right_comm]
    by_cases first : keep 0 <;> simp [pick, first, ih, shift]

variable {keep}

theorem pick_congr {other : Nat → Prop} [DecidablePred other] {text : Text}
    (same : ∀ i < text.length, keep i ↔ other i) : pick keep text = pick other text := by
  induction text generalizing keep other with
  | nil => rfl
  | cons c rest ih =>
    have tail : pick (fun i => keep (i + 1)) rest = pick (fun i => other (i + 1)) rest :=
      ih fun i below => same (i + 1) (Nat.succ_lt_succ below)
    simp only [pick, same 0 (Nat.succ_pos _), tail]

theorem pick_of_forall {text : Text} (all : ∀ i < text.length, keep i) : pick keep text = text := by
  induction text generalizing keep with
  | nil => rfl
  | cons c rest ih =>
    have tail : pick (fun i => keep (i + 1)) rest = rest :=
      ih fun i below => all (i + 1) (Nat.succ_lt_succ below)
    simp only [pick, all 0 (Nat.succ_pos _), if_true, tail]

theorem pick_of_forall_not {text : Text} (none : ∀ i < text.length, ¬ keep i) :
    pick keep text = [] := by
  have empty : (pick keep text).length = 0 := by
    rw [length_pick, Nat.count_iff_forall_not]
    exact none
  exact List.eq_nil_of_length_eq_zero empty

end

theorem splice_slice {text : Text} {region : Region} : text.splice region (text.slice region) = text := by
  simp [splice, slice, ← List.drop_drop]

theorem exists_parts {text : Text} {region : Region} (inside : region.Inside text.length) :
    ∃ front middle back, text = front ++ middle ++ back ∧ front.length = region.offset ∧
      middle.length = region.length := by
  have := Region.inside_iff.mp inside
  refine ⟨text.take region.offset, text.slice region, text.drop (region.offset + region.length),
    splice_slice.symm, ?_, length_slice inside⟩
  rw [List.length_take]
  omega

theorem splice_parts (front middle back replacement : Text) :
    (front ++ middle ++ back).splice ⟨front.length, middle.length⟩ replacement =
      front ++ replacement ++ back := by
  simp [splice, List.drop_append]

theorem splice_whole (text replacement : Text) :
    text.splice ⟨0, text.length⟩ replacement = replacement := by
  simp [splice]

theorem splice_empty (text : Text) (offset : Nat) : text.splice ⟨offset, 0⟩ [] = text := by
  simp [splice]

theorem splice_insert (text : Text) {offset : Nat} (inside : offset ≤ text.length)
    (first second : Text) :
    (text.splice ⟨offset, 0⟩ first).splice ⟨offset + first.length, 0⟩ second =
      text.splice ⟨offset, 0⟩ (first ++ second) := by
  have front : (text.take offset ++ first).length = offset + first.length := by
    rw [List.length_append, List.length_take_of_le inside]
  simp only [splice, Nat.add_zero]
  rw [← front, List.take_left, List.drop_left]
  simp only [List.append_assoc]

theorem splice_remove (text : Text) {offset : Nat} (inside : offset ≤ text.length) (count : Nat) :
    (text.splice ⟨offset, 1⟩ []).splice ⟨offset, count⟩ [] = text.splice ⟨offset, count + 1⟩ [] := by
  have front : (text.take offset).length = offset := List.length_take_of_le inside
  have rest : (text.take offset ++ text.drop (offset + 1)).drop (offset + count) =
      text.drop (offset + (count + 1)) := by
    rw [List.drop_append, front, List.drop_drop, List.drop_eq_nil_of_le (by omega)]
    simp only [List.nil_append]
    congr 1
    omega
  simp only [splice, List.append_nil, rest]
  rw [List.take_append_of_le_length front.ge, List.take_of_length_le front.le]

/-- Replace a region of a text, and keep among the other characters what was kept before:
the characters picked change in one region too, and what is kept of the replacement stands
there. -/
theorem pick_splice {before after : Nat → Prop} [DecidablePred before] [DecidablePred after]
    {text replacement : Text} {region : Region} (inside : region.Inside text.length)
    (below : ∀ i < region.offset, after i ↔ before i)
    (above : ∀ i, after (region.offset + replacement.length + i) ↔
      before (region.offset + region.length + i)) :
    pick after (text.splice region replacement) =
      (pick before text).splice
        ⟨Nat.count before region.offset,
          Nat.count (fun i => before (region.offset + i)) region.length⟩
        (pick (fun i => after (region.offset + i)) replacement) := by
  obtain ⟨front, middle, back, rfl, start, length⟩ := exists_parts inside
  obtain rfl : region = ⟨front.length, middle.length⟩ := by rw [start, length]
  have first : pick after front = pick before front := pick_congr below
  have last : pick (fun i => after ((front ++ replacement).length + i)) back =
      pick (fun i => before ((front ++ middle).length + i)) back :=
    pick_congr fun i _ => by simpa only [List.length_append] using above i
  rw [splice_parts, pick_append, pick_append, first, last, pick_append before, pick_append before,
    ← length_pick before, ← length_pick (fun i => before (front.length + i)), splice_parts]

end Text

end TextProjection
