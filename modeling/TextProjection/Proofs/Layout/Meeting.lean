import TextProjection.Proofs.Layout.Search

/-! The fragments that a region meets are found, although the search stops early on both
sides. There is an answer as long as every end that has to be looked at is a word.
-/

set_option autoImplicit false

namespace TextProjection

namespace Interval

def Meets (interval : Interval) (region : Region) : Prop :=
  if 0 < region.length then
    if 0 < interval.length then
      interval.offset < region.stop ∧ region.offset < interval.stop
    else region.offset ≤ interval.offset ∧ interval.offset < region.stop
  else if 0 < interval.length then
    interval.offset ≤ region.offset ∧ region.offset < interval.stop
  else interval.offset = region.offset

instance (interval : Interval) (region : Region) : Decidable (interval.Meets region) :=
  inferInstanceAs (Decidable (@ite Prop _ _ _ _))

/-- The interval starts before the region ends, or where the region starts, and the interval itself ends
past the last word. -/
def Overruns (interval : Interval) (region : Region) : Prop :=
  0 < interval.length ∧ Offset.bound ≤ interval.stop ∧
    (interval.offset < region.stop ∨ interval.offset = region.offset)

instance (interval : Interval) (region : Region) : Decidable (interval.Overruns region) :=
  inferInstanceAs (Decidable (_ ∧ _))

variable {interval : Interval} {region : Region}

theorem stop?_eq (word : interval.stop < Offset.bound) : interval.stop? = some interval.stop :=
  if_pos word

theorem stop?_eq_none (far : Offset.bound ≤ interval.stop) : interval.stop? = none :=
  if_neg (Nat.not_lt.mpr far)

theorem bounds_of_meets (meets : interval.Meets region) :
    interval.offset ≤ region.stop ∧ region.offset ≤ interval.stop := by
  unfold Meets at meets
  unfold Interval.stop Region.stop at *
  split_ifs at meets <;> omega

theorem reaches?_eq (early : Prop) [Decidable early] (position : Nat) :
    (if early then interval.stop?.map (position < ·) else some false : Option Bool) =
      if early ∧ Offset.bound ≤ interval.stop then none
      else some (decide (early ∧ position < interval.stop)) := by
  rcases Nat.lt_or_ge interval.stop Offset.bound with ends | past
  · rw [stop?_eq ends]
    by_cases early <;> simp [*, Nat.not_le.mpr ends]
  · rw [stop?_eq_none past]
    by_cases early <;> simp [*]

theorem meets?_eq (word : region.stop < Offset.bound) :
    interval.meets? region =
      if interval.Overruns region then none else some (decide (interval.Meets region)) := by
  have limit : region.stop = region.offset + region.length := rfl
  rw [meets?, Region.stop?_eq word, Option.bind_eq_bind, Option.bind_some]
  by_cases solid : 0 < interval.length
  · have answer (early : Prop) [Decidable early]
        (reaches : interval.offset < region.stop ∨ interval.offset = region.offset ↔ early)
        (meets : interval.Meets region ↔ early ∧ region.offset < interval.stop) :
        (if early then interval.stop?.map (region.offset < ·) else some false : Option Bool) =
          if interval.Overruns region then none else some (decide (interval.Meets region)) := by
      have overruns : early ∧ Offset.bound ≤ interval.stop ↔ interval.Overruns region := by
        rw [Overruns, reaches, and_comm, and_iff_right solid]
      rw [reaches?_eq, decide_eq_decide.mpr meets, if_congr overruns rfl rfl]
    by_cases long : 0 < region.length
    · rw [if_pos long, if_pos solid]
      refine answer _ (by omega) ?_
      rw [Meets, if_pos long, if_pos solid]
    · rw [if_neg long, if_pos solid, contains?]
      refine answer _ (by omega) ?_
      rw [Meets, if_neg long, if_pos solid]
  · have inside : ¬ interval.Overruns region := fun overruns => solid overruns.1
    rw [if_neg inside, if_neg solid, if_neg solid]
    by_cases long : 0 < region.length <;> simp [Meets, solid, long, beq_eq_decide]

end Interval

namespace Layout

variable {layout : Layout} {size : Nat} {region : Region} {pairs : List Pair}

theorem meetingAmong?_eq (ordered : Ordered pairs) (word : region.stop < Offset.bound) :
    meetingAmong? region pairs =
      if ∃ pair ∈ pairs, pair.fragment.Overruns region then none
      else some (pairs.filter (·.fragment.Meets region)) := by
  induction pairs with
  | nil => simp [meetingAmong?]
  | cons pair rest ih =>
    obtain ⟨live, after, tail⟩ := ordered_cons.mp ordered
    have start : region.offset ≤ region.stop := Nat.le_add_right ..
    have here : pair.meets? region = pair.fragment.meets? region := by
      rw [Pair.meets?, Pair.deleted, live, if_neg Bool.false_ne_true]
    rw [meetingAmong?, Region.stop?_eq word, Option.bind_eq_bind, Option.bind_some]
    by_cases late : region.stop < pair.fragment.offset
    · -- What starts past the region is of no interest, and neither is what comes after it.
      have beyond : ∀ other ∈ pair :: rest, region.stop < other.fragment.offset := by
        refine List.forall_mem_cons.mpr ⟨late, fun other member => ?_⟩
        have := after other member
        have := pair.fragment.offset_le_stop
        omega
      have none : (pair :: rest).filter (·.fragment.Meets region) = [] := by
        refine List.filter_eq_nil_iff.mpr fun other member meets => ?_
        have := (Interval.bounds_of_meets (of_decide_eq_true meets)).1
        have := beyond other member
        omega
      have inside : ¬ ∃ other ∈ pair :: rest, other.fragment.Overruns region := by
        rintro ⟨other, member, -, -, reaches⟩
        have := beyond other member
        omega
      rw [if_pos late, if_neg inside, none]
    · rw [if_neg late, here, ih tail, Interval.meets?_eq word]
      by_cases overruns : pair.fragment.Overruns region
      · simp [overruns]
      · by_cases others : ∃ other ∈ rest, other.fragment.Overruns region
        · simp [others]
        · by_cases meets : pair.fragment.Meets region <;> simp [overruns, others, meets]

/-- Among fragments in order, none of those that the search passes over matters. -/
theorem meeting?_eq (ordered : Ordered layout.pairs) (word : region.stop < Offset.bound) :
    layout.meeting? region =
      if ∃ pair ∈ layout.pairs, pair.fragment.Overruns region then none
      else some (layout.pairs.filter (·.fragment.Meets region)) := by
  obtain ⟨front, back, split, starts, ahead⟩ := ordered.exists_split_before region.offset
  rw [meeting?, firstFrom_eq split starts ahead]
  rcases List.eq_nil_or_concat' front with rfl | ⟨init, last, rfl⟩
  · exact meetingAmong?_eq ordered word
  · have regroup : layout.pairs = init ++ last :: back := by simp [split]
    have kept : layout.pairs.drop ((init ++ [last]).length - 1) = last :: back := by simp [regroup]
    -- Up to the last one before the offset, all end before that one starts.
    have passed : ∀ pair ∈ init, pair.fragment.stop < region.offset := fun pair member => by
      have := (ordered_append.mp (regroup ▸ ordered)).2.2 pair member last (List.mem_cons_self ..)
      have := starts last (by simp)
      omega
    have start : region.offset ≤ region.stop := Nat.le_add_right ..
    have inside : ¬ ∃ pair ∈ init, pair.fragment.Overruns region := by
      rintro ⟨pair, member, -, past, -⟩
      have := passed pair member
      omega
    have none : init.filter (·.fragment.Meets region) = [] := by
      refine List.filter_eq_nil_iff.mpr fun pair member meets => ?_
      have := (Interval.bounds_of_meets (of_decide_eq_true meets)).2
      have := passed pair member
      omega
    have others : (∃ pair ∈ init ++ last :: back, pair.fragment.Overruns region) ↔
        ∃ pair ∈ last :: back, pair.fragment.Overruns region := by
      simp only [List.mem_append, or_and_right, exists_or, or_iff_right inside]
    rw [kept, regroup, meetingAmong?_eq (ordered_append.mp (regroup ▸ ordered)).2.1 word,
      if_congr others rfl rfl, List.filter_append, none, List.nil_append]

/-- Where the region itself ends past the last word, the first fragment that is looked at is one too
many. -/
theorem meeting?_of_far (ordered : Ordered layout.pairs) (some : layout.pairs ≠ [])
    (far : ¬ region.stop < Offset.bound) : layout.meeting? region = none := by
  obtain ⟨front, back, split, starts, ahead⟩ := ordered.exists_split_before region.offset
  have fewer : layout.firstFrom region.offset ≤ layout.pairs.length := by
    rw [firstFrom_eq split starts ahead, split, List.length_append]
    exact Nat.le_add_right ..
  cases looked : layout.pairs.drop (layout.firstFrom region.offset - 1) with
  | nil =>
    have := List.length_pos_of_ne_nil some
    have := List.drop_eq_nil_iff.mp looked
    omega
  | cons pair rest => rw [meeting?, looked, meetingAmong?, Region.stop?_eq_none far]; rfl

theorem WellFormed.meeting?_eq_filter (wf : layout.WellFormed size) (fits : size < Offset.bound)
    (word : region.stop < Offset.bound) :
    layout.meeting? region = some (layout.pairs.filter (·.fragment.Meets region)) := by
  have inside : ¬ ∃ pair ∈ layout.pairs, pair.fragment.Overruns region := by
    rintro ⟨pair, member, -, past, -⟩
    have := wf.inside pair member
    omega
  rw [meeting?_eq wf.ordered word, if_neg inside]

end Layout

end TextProjection
