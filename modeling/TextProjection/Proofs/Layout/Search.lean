import TextProjection.Proofs.Layout.WellFormed

/-! Finding fragments and segments in a well-formed layout. An offset is held by a fragment,
which then splits the list of pairs, or it falls between two parts of the list.
-/

set_option autoImplicit false

namespace TextProjection

def Interval.Holds (interval : Interval) (offset : Nat) : Prop :=
  interval.offset ≤ offset ∧ (offset < interval.stop ∨ offset = interval.offset)

namespace Layout

/-- Fragments up to the offset come first, the others lie past it, and none holds it. -/
structure Between (front back : List Pair) (offset : Nat) : Prop where
  past : ∀ pair ∈ front, pair.fragment.offset < offset ∧ pair.fragment.stop ≤ offset
  ahead : ∀ pair ∈ back, offset < pair.fragment.offset

theorem held_or_between {pairs : List Pair}
    (apart : pairs.Pairwise fun left right => left.fragment.stop < right.fragment.offset)
    (offset : Nat) :
    (∃ front pair back, pairs = front ++ pair :: back ∧ pair.fragment.Holds offset) ∨
      ∃ front back, pairs = front ++ back ∧ Between front back offset := by
  induction pairs with
  | nil => exact .inr ⟨[], [], rfl, ⟨by simp, by simp⟩⟩
  | cons pair rest ih =>
    obtain ⟨after, tail⟩ := List.pairwise_cons.mp apart
    by_cases early : offset < pair.fragment.offset
    · refine .inr ⟨[], pair :: rest, rfl, ⟨by simp, ?_⟩⟩
      rintro other (_ | ⟨_, member⟩)
      · exact early
      · have := after other member
        have := pair.fragment.offset_le_stop
        omega
    · by_cases held : offset < pair.fragment.stop ∨ offset = pair.fragment.offset
      · exact .inl ⟨[], pair, rest, rfl, Nat.le_of_not_lt early, held⟩
      · rcases ih tail with ⟨front, other, back, rfl, holds⟩ | ⟨front, back, rfl, between⟩
        · exact .inl ⟨pair :: front, other, back, rfl, holds⟩
        · refine .inr ⟨pair :: front, back, rfl, ⟨?_, between.ahead⟩⟩
          rintro other (_ | ⟨_, member⟩)
          · omega
          · exact between.past other member

theorem Between.not_shownBy {front back : List Pair} {offset : Nat}
    (between : Between front back offset) : ¬ ShownBy (front ++ back) offset := by
  rintro ⟨pair, member, -, start, stop⟩
  rcases List.mem_append.mp member with member | member
  · have := between.past pair member
    omega
  · have := between.ahead pair member
    omega

theorem Ordered.exists_split_before {pairs : List Pair} (ordered : Ordered pairs) (offset : Nat) :
    ∃ front back, pairs = front ++ back ∧ (∀ pair ∈ front, pair.fragment.offset < offset) ∧
      ∀ pair ∈ back, offset ≤ pair.fragment.offset := by
  induction pairs with
  | nil => exact ⟨[], [], rfl, by simp, by simp⟩
  | cons pair rest ih =>
    obtain ⟨-, after, tail⟩ := ordered_cons.mp ordered
    by_cases early : pair.fragment.offset < offset
    · obtain ⟨front, back, rfl, starts, ahead⟩ := ih tail
      exact ⟨pair :: front, back, rfl, List.forall_mem_cons.mpr ⟨early, starts⟩, ahead⟩
    · refine ⟨[], pair :: rest, rfl, by simp, List.forall_mem_cons.mpr ⟨by omega, ?_⟩⟩
      intro other member
      have := after other member
      have := pair.fragment.offset_le_stop
      omega

theorem filterMap_takeWhile {α β : Type} {entries : List α} {keep : α → Bool}
    {part? : α → Option β}
    (sorted : entries.Pairwise fun left right => keep right = true → keep left = true)
    (none : ∀ entry ∈ entries, keep entry = false → part? entry = none) :
    (entries.takeWhile keep).filterMap part? = entries.filterMap part? := by
  induction entries with
  | nil => rfl
  | cons entry rest ih =>
    obtain ⟨before, tail⟩ := List.pairwise_cons.mp sorted
    obtain ⟨first, others⟩ := List.forall_mem_cons.mp none
    cases kept : keep entry with
    | true =>
      rw [List.takeWhile_cons_of_pos kept, List.filterMap_cons, List.filterMap_cons, ih tail others]
    | false =>
      have dropped : ∀ other ∈ entry :: rest, part? other = Option.none := by
        refine List.forall_mem_cons.mpr ⟨first kept, fun other member => others other member ?_⟩
        cases again : keep other with
        | true => exact absurd (before other member again) (by simp [kept])
        | false => rfl
      rw [List.takeWhile_cons_of_neg (by simp [kept]), List.filterMap_nil,
        List.filterMap_eq_nil_iff.mpr dropped]

theorem firstFrom_eq {layout : Layout} {front back : List Pair} {offset : Nat}
    (split : layout.pairs = front ++ back) (past : ∀ pair ∈ front, pair.fragment.offset < offset)
    (ahead : ∀ pair ∈ back, offset ≤ pair.fragment.offset) :
    layout.firstFrom offset = front.length := by
  rw [firstFrom, split]
  exact bisect_append (fun pair member => decide_eq_true (past pair member))
    fun pair member => decide_eq_false (Nat.not_lt.mpr (ahead pair member))

theorem fragmentAt?_of_between {layout : Layout} {offset : Nat} {front back : List Pair}
    (split : layout.pairs = front ++ back) (between : Between front back offset)
    (fallback : Fallback) :
    layout.fragmentAt? offset fallback =
      match fallback with
      | .none => none
      | .left => if 0 < front.length then some (front.length - 1) else none
      | .right => if front.length < layout.size then some front.length else none := by
  have found : layout.firstFrom offset = front.length :=
    firstFrom_eq split (fun other member => (between.past other member).1)
      fun other member => Nat.le_of_lt (between.ahead other member)
  have next : layout.pairs[front.length]?.any (·.fragment.offset == offset) = false := by
    rw [split, List.getElem?_append_right (by omega), Nat.sub_self]
    cases back with
    | nil => simp
    | cons other _ =>
      have ahead := between.ahead other (List.mem_cons_self ..)
      have differs : other.fragment.offset ≠ offset := Nat.ne_of_gt ahead
      simp [differs]
  have previous : ¬ (0 < front.length ∧
      layout.pairs[front.length - 1]?.any (·.fragment.contains offset) = true) := by
    rintro ⟨positive, contained⟩
    obtain ⟨other, found, contained⟩ := (Option.any_eq_true _ _).mp contained
    rw [split, List.getElem?_append_left (by omega)] at found
    have member := List.mem_of_getElem? found
    have := (between.past other member).2
    simp only [Interval.contains, Bool.and_eq_true, decide_eq_true_eq] at contained
    omega
  cases fallback <;>
    simp only [fragmentAt?, found, next, previous, Bool.false_eq_true, if_false]

namespace WellFormed

variable {layout : Layout} {size offset : Nat} {front back : List Pair} {pair : Pair}

theorem fragmentAt?_of_holds (wf : layout.WellFormed size)
    (split : layout.pairs = front ++ pair :: back) (holds : pair.fragment.Holds offset)
    (fallback : Fallback) : layout.fragmentAt? offset fallback = some front.length := by
  have before := wf.before split
  have after := wf.after split
  obtain ⟨start, inner⟩ := holds
  -- The search stops at the fragment if it starts there, and right behind it otherwise.
  by_cases exact : offset = pair.fragment.offset
  · have found : layout.firstFrom offset = front.length := by
      apply firstFrom_eq split
      · intro other member
        have := before other member
        have := other.fragment.offset_le_stop
        omega
      · rintro other (_ | ⟨_, member⟩)
        · omega
        · have := after other member
          have := pair.fragment.offset_le_stop
          omega
    have starts : layout.pairs[front.length]?.any (·.fragment.offset == offset) = true := by
      simp [split, exact]
    simp only [fragmentAt?, found, starts, if_true]
  · have found : layout.firstFrom offset = front.length + 1 := by
      have regroup : layout.pairs = (front ++ [pair]) ++ back := by simp [split]
      have length : (front ++ [pair]).length = front.length + 1 := by simp
      rw [← length]
      apply firstFrom_eq regroup
      · intro other member
        rcases List.mem_append.mp member with member | member
        · have := before other member
          have := other.fragment.offset_le_stop
          omega
        · rw [List.mem_singleton.mp member]
          omega
      · intro other member
        have := after other member
        omega
    have next : layout.pairs[front.length + 1]?.any (·.fragment.offset == offset) = false := by
      rw [split, List.getElem?_append_right (by omega)]
      cases back with
      | nil => simp
      | cons other _ =>
        have := after other (List.mem_cons_self ..)
        simp
        omega
    have contained : layout.pairs[front.length]?.any (·.fragment.contains offset) = true := by
      simp [split, Interval.contains]
      omega
    simp only [fragmentAt?, found, next, Nat.add_sub_cancel, contained, Nat.succ_pos, and_true,
      Bool.false_eq_true, if_false, if_true]

theorem segmentAt?_eq (wf : layout.WellFormed size)
    (split : layout.pairs = front ++ pair :: back) {image : Nat} (start : extent front ≤ image)
    (inner : image < extent front + pair.fragment.length ∨
      back = [] ∧ image = extent front + pair.fragment.length) :
    layout.segmentAt? image = some front.length := by
  have regroup : layout.pairs = (front ++ [pair]) ++ back := by simp [split]
  have tiled := wf.tiled
  rw [split, tiles_append, Nat.zero_add] at tiled
  obtain ⟨frontTiled, segment, backTiled⟩ := tiled
  -- Just the segments up to this one start at the image or before it.
  have found : bisect (·.segment.offset ≤ image) layout.pairs = front.length + 1 := by
    have length : (front ++ [pair]).length = front.length + 1 := by simp
    rw [regroup, ← length]
    apply bisect_append
    · intro other member
      apply decide_eq_true
      rcases List.mem_append.mp member with member | member
      · have := frontTiled.bounds member
        omega
      · rw [List.mem_singleton.mp member, segment]
        exact start
    · intro other member
      apply decide_eq_false
      have := backTiled.bounds member
      rcases inner with inner | ⟨rfl, -⟩
      · omega
      · cases member
  have stop := wf.segment_stop split
  have last : (front.length + 1 == layout.size) = back.isEmpty := by
    cases back <;> simp [Layout.size, split]
  have entry : layout.pairs[front.length]? = some pair := by simp [split]
  have offset : pair.segment.offset = extent front := by rw [segment]
  have holds : layout.pairs[front.length]?.any (fun pair =>
      pair.segment.contains image ||
        (pair.segment.length == 0 && pair.segment.offset == image) ||
        (front.length + 1 == layout.size && pair.segment.stop == image)) = true := by
    simp only [entry, Option.any_some, Interval.contains, offset, stop, last]
    rcases inner with inner | ⟨rfl, rfl⟩
    · simp [start, inner]
    · simp
  simp only [segmentAt?, found, holds, if_true]

theorem exists_segment {pairs : List Pair} (nonempty : pairs ≠ []) {image : Nat}
    (inside : image ≤ extent pairs) :
    ∃ front pair back, pairs = front ++ pair :: back ∧ extent front ≤ image ∧
      (image < extent front + pair.fragment.length ∨
        back = [] ∧ image = extent front + pair.fragment.length) := by
  induction pairs generalizing image with
  | nil => exact absurd rfl nonempty
  | cons pair rest ih =>
    rw [extent_cons] at inside
    by_cases inner : image < pair.fragment.length
    · exact ⟨[], pair, rest, rfl, Nat.zero_le _, .inl (by simpa using inner)⟩
    · cases rest with
      | nil =>
        rw [extent_nil] at inside
        exact ⟨[], pair, [], rfl, Nat.zero_le _, .inr ⟨rfl, by rw [extent_nil]; omega⟩⟩
      -- Where one segment ends, the next one is meant.
      | cons other rest =>
        have rest : image - pair.fragment.length ≤ extent (other :: rest) := by omega
        obtain ⟨front, found, back, split, start, inner⟩ := ih (List.cons_ne_nil _ _) rest
        refine ⟨pair :: front, found, back, by rw [split]; rfl, by rw [extent_cons]; omega, ?_⟩
        rw [extent_cons]
        rcases inner with inner | ⟨last, stop⟩
        · exact .inl (by omega)
        · exact .inr ⟨last, by omega⟩

end WellFormed

end Layout

end TextProjection
