import TextProjection.Proofs.Layout.Shows

/-! Well-formed layouts and projections. In a well-formed layout the rank of an offset is
where its character is shown, and what the bookkeeping looks for is never found.
-/

set_option autoImplicit false

namespace TextProjection

namespace Layout

def Tiles : Nat → List Pair → Prop
  | _, [] => True
  | start, pair :: rest =>
    pair.segment = ⟨start, pair.fragment.length, false⟩ ∧
      Tiles (start + pair.fragment.length) rest

/-- Live fragments inside a text of `size` characters, each of which ends before the next
one starts, and the segments laid out. An empty fragment is the only one. -/
structure WellFormed (layout : Layout) (size : Nat) : Prop where
  live : ∀ pair ∈ layout.pairs, pair.fragment.deleted = false
  tiled : Tiles 0 layout.pairs
  apart : layout.pairs.Pairwise fun left right => left.fragment.stop < right.fragment.offset
  solid : 2 ≤ layout.size → ∀ pair ∈ layout.pairs, 0 < pair.fragment.length
  inside : ∀ pair ∈ layout.pairs, pair.fragment.stop ≤ size

theorem tiles_append {start : Nat} {front back : List Pair} :
    Tiles start (front ++ back) ↔ Tiles start front ∧ Tiles (start + extent front) back := by
  induction front generalizing start with
  | nil => simp [Tiles]
  | cons pair rest ih => simp only [List.cons_append, Tiles, ih, extent_cons, and_assoc, Nat.add_assoc]

theorem Tiles.bounds {start : Nat} {pairs : List Pair} (tiled : Tiles start pairs) {pair : Pair}
    (member : pair ∈ pairs) :
    start ≤ pair.segment.offset ∧
      pair.segment.offset + pair.fragment.length ≤ start + extent pairs := by
  induction pairs generalizing start with
  | nil => cases member
  | cons first rest ih =>
    obtain ⟨segment, tail⟩ := tiled
    rw [extent_cons]
    rcases List.mem_cons.mp member with rfl | member
    · rw [segment]
      simp only
      omega
    · have := ih tail member
      omega

theorem Tiles.pairwise {start : Nat} {pairs : List Pair} (tiled : Tiles start pairs) :
    pairs.Pairwise fun left right => left.segment.offset ≤ right.segment.offset := by
  induction pairs generalizing start with
  | nil => exact .nil
  | cons first rest ih =>
    obtain ⟨segment, tail⟩ := tiled
    refine List.pairwise_cons.mpr ⟨fun other member => ?_, ih tail⟩
    have := (tail.bounds member).1
    rw [segment]
    simp only
    omega

theorem Tiles.length_segment {start : Nat} {pairs : List Pair} (tiled : Tiles start pairs)
    {pair : Pair} (member : pair ∈ pairs) :
    pair.segment.length = pair.fragment.length ∧ pair.segment.deleted = false := by
  induction pairs generalizing start with
  | nil => cases member
  | cons first rest ih =>
    rcases List.mem_cons.mp member with rfl | member
    · rw [tiled.1]
      exact ⟨rfl, rfl⟩
    · exact ih tiled.2 member

namespace WellFormed

variable {layout : Layout} {size : Nat}

theorem ordered (wf : layout.WellFormed size) : Ordered layout.pairs :=
  ⟨wf.live, wf.apart.imp Nat.le_of_lt⟩

theorem extent_le (wf : layout.WellFormed size) : extent layout.pairs ≤ size :=
  Layout.extent_le wf.ordered wf.inside

theorem nil : ({} : Layout).WellFormed size where
  live := by simp
  tiled := trivial
  apart := .nil
  solid := by simp
  inside := by simp

variable {front back : List Pair} {pair : Pair}

theorem segment_eq (wf : layout.WellFormed size) (split : layout.pairs = front ++ pair :: back) :
    pair.segment = ⟨extent front, pair.fragment.length, false⟩ := by
  have tiled := wf.tiled
  rw [split, tiles_append] at tiled
  simpa using tiled.2.1

theorem member_of_split (split : layout.pairs = front ++ pair :: back) : pair ∈ layout.pairs := by
  simp [split]

theorem segment_stop (wf : layout.WellFormed size)
    (split : layout.pairs = front ++ pair :: back) :
    pair.segment.stop = extent front + pair.fragment.length := by
  rw [wf.segment_eq split]
  rfl

theorem before (wf : layout.WellFormed size) (split : layout.pairs = front ++ pair :: back) :
    ∀ other ∈ front, other.fragment.stop < pair.fragment.offset := by
  have apart := wf.apart
  rw [split, List.pairwise_append] at apart
  exact fun other member => apart.2.2 other member pair (List.mem_cons_self ..)

theorem after (wf : layout.WellFormed size) (split : layout.pairs = front ++ pair :: back) :
    ∀ other ∈ back, pair.fragment.stop < other.fragment.offset := by
  have apart := wf.apart
  rw [split, List.pairwise_append] at apart
  exact (List.pairwise_cons.mp apart.2.1).1

theorem rank_between (wf : layout.WellFormed size) (split : layout.pairs = front ++ back)
    {offset : Nat} (past : ∀ other ∈ front, other.fragment.stop ≤ offset)
    (ahead : ∀ other ∈ back, offset ≤ other.fragment.offset) :
    layout.rank offset = extent front := by
  have ordered := wf.ordered
  have counted : layout.rank offset = Nat.count (ShownBy (front ++ back)) offset :=
    count_congr fun i _ => by rw [Shows, split]
  rw [split] at ordered
  rw [counted, count_shownBy_append ordered, count_shownBy_of_le ahead,
    count_shownBy_of_stop_le (ordered_append.mp ordered).1 past, Nat.add_zero]

theorem rank_within (wf : layout.WellFormed size) (split : layout.pairs = front ++ pair :: back)
    {offset : Nat} (start : pair.fragment.offset ≤ offset) (stop : offset ≤ pair.fragment.stop) :
    layout.rank offset = extent front + (offset - pair.fragment.offset) := by
  have ordered := wf.ordered
  have past : ∀ other ∈ front, other.fragment.stop ≤ offset := fun other member => by
    have := wf.before split other member
    omega
  have ahead : ∀ other ∈ back, offset ≤ other.fragment.offset := fun other member => by
    have := wf.after split other member
    omega
  have counted : layout.rank offset = Nat.count (ShownBy (front ++ pair :: back)) offset :=
    count_congr fun i _ => by rw [Shows, split]
  rw [split] at ordered
  obtain ⟨frontOrdered, backOrdered, -⟩ := ordered_append.mp ordered
  rw [counted, count_shownBy_append ordered, count_shownBy_of_stop_le frontOrdered past,
    count_shownBy_cons backOrdered, count_shownBy_of_le ahead]
  unfold Interval.stop at stop
  omega

theorem rank_le_extent (wf : layout.WellFormed size) (offset : Nat) :
    layout.rank offset ≤ extent layout.pairs :=
  count_shownBy_le wf.ordered wf.inside offset

theorem rank_size (wf : layout.WellFormed size) : layout.rank size = extent layout.pairs :=
  wf.rank_between (List.append_nil _).symm wf.inside (by simp)

theorem textUnder_eq_pick {text : Text} (wf : layout.WellFormed text.length) :
    layout.textUnder text = text.pick layout.Shows :=
  flatMap_slice_eq_pick wf.ordered wf.inside

theorem length_textUnder {text : Text} (wf : layout.WellFormed text.length) :
    (layout.textUnder text).length = extent layout.pairs := by
  rw [wf.textUnder_eq_pick, Text.length_pick, ← wf.rank_size]
  rfl

end WellFormed

def twoApart : Layout := ⟨[⟨⟨2, 3, false⟩, ⟨0, 3, false⟩⟩, ⟨⟨7, 2, false⟩, ⟨3, 2, false⟩⟩]⟩

theorem twoApart_wellFormed : twoApart.WellFormed 10 where
  live := by decide
  tiled := by simp [twoApart, Tiles]
  apart := by decide
  solid := by decide
  inside := by decide

theorem faultFrom?_eq_none {index start : Nat} {pairs : List Pair} (ordered : Ordered pairs)
    (tiled : Tiles start pairs) :
    faultFrom? index start pairs = none := by
  induction pairs generalizing index start with
  | nil => rfl
  | cons pair rest ih =>
    obtain ⟨live, after, tailOrdered⟩ := ordered_cons.mp ordered
    obtain ⟨segment, tailTiled⟩ := tiled
    have next : rest.head?.any (·.fragment.offset < pair.fragment.stop) = false := by
      cases rest with
      | nil => rfl
      | cons other _ =>
        have := after other (List.mem_cons_self ..)
        simp only [List.head?_cons, Option.any_some, decide_eq_false_iff_not]
        omega
    have segmentStop : pair.segment.stop = start + pair.fragment.length := by
      rw [segment]
      rfl
    have tail : faultFrom? (index + 1) (start + pair.fragment.length) rest = none :=
      ih tailOrdered tailTiled
    rw [faultFrom?, segmentStop, tail]
    simp [Pair.deleted, live, segment, next]

theorem foldl_add_eq {pairs : List Pair} {start sum : Nat} (tiled : Tiles start pairs) :
    pairs.foldl (fun sum pair => sum + pair.segment.length) sum = sum + extent pairs := by
  induction pairs generalizing start sum with
  | nil => rfl
  | cons pair rest ih =>
    obtain ⟨segment, tail⟩ := tiled
    rw [List.foldl_cons, ih tail, segment, extent_cons, Nat.add_assoc]

namespace WellFormed

variable {layout : Layout} {size : Nat}

theorem fault?_eq_none (wf : layout.WellFormed size) : layout.fault? = none :=
  faultFrom?_eq_none wf.ordered wf.tiled

theorem coveredLength_eq (wf : layout.WellFormed size) :
    layout.coveredLength = extent layout.pairs := by
  have all : layout.pairs.filter (!·.deleted) = layout.pairs :=
    List.filter_eq_self.mpr fun pair member => by simp [Pair.deleted, wf.live pair member]
  rw [coveredLength, all, foldl_add_eq wf.tiled, Nat.zero_add]

end WellFormed

end Layout

namespace Projection

/-- The layout is well-formed for the master text, and the text is that under the
fragments. -/
structure WellFormed (projection : Projection) (master : Text) : Prop where
  layout : projection.layout.WellFormed master.length
  text_eq : projection.text = projection.layout.textUnder master

namespace WellFormed

variable {projection : Projection} {master : Text}

theorem congr {other : Projection} (wf : projection.WellFormed master)
    (layout : other.layout = projection.layout) (text : other.text = projection.text) :
    other.WellFormed master :=
  ⟨layout ▸ wf.layout, by rw [text, layout, wf.text_eq]⟩

theorem length_eq (wf : projection.WellFormed master) :
    projection.length = Layout.extent projection.layout.pairs := by
  rw [length, wf.text_eq, wf.layout.length_textUnder]

theorem checked_eq (wf : projection.WellFormed master) :
    projection.checked = .done projection := by
  have lengths : projection.length = projection.layout.coveredLength := by
    rw [wf.layout.coveredLength_eq, wf.length_eq]
  simp [checked, fault?, wf.layout.fault?_eq_none, lengths, Outcome.done]

end WellFormed

end Projection

end TextProjection
