import TextProjection.Proofs.Session.Reveal
import TextProjection.Proofs.Layout.Converge

/-! What an edit of the master makes of a projection is determined by the edit and by what was shown
before. So edits compose: it makes no difference whether text is inserted as a whole or in two parts,
nor whether characters are removed at once or one after the other.
-/

set_option autoImplicit false

namespace TextProjection

namespace Layout

/-- Where the fragments of a layout that shows nothing are after an edit that does not concern them.
Without a fragment there is none afterwards, but a mere insertion brings one. -/
def passedBy (layout : Layout) (region : Region) (text : Text) : Layout :=
  match layout.pairs with
  | [] => if region.length = 0 then vacant 0 else {}
  | pair :: _ =>
    vacant (if pair.fragment.offset ≤ region.offset then pair.fragment.offset
      else pair.fragment.offset - region.length + text.length)

theorem passedBy_of_blank {layout : Layout} (none : layout.pairs = []) (region : Region) (text : Text) :
    layout.passedBy region text = if region.length = 0 then vacant 0 else {} := by
  rw [passedBy, none]

theorem passedBy_vacant (offset : Nat) (region : Region) (text : Text) :
    (vacant offset).passedBy region text =
      vacant (if offset ≤ region.offset then offset else offset - region.length + text.length) := rfl

theorem passedBy_insert (layout : Layout) (offset : Nat) (first second : Text) :
    (layout.passedBy ⟨offset, 0⟩ first).passedBy ⟨offset + first.length, 0⟩ second =
      layout.passedBy ⟨offset, 0⟩ (first ++ second) := by
  obtain ⟨_ | ⟨pair, rest⟩⟩ := layout
  · simp [passedBy, vacant]
  · refine congrArg vacant ?_
    simp only [List.length_append]
    split_ifs <;> omega

theorem passedBy_remove (layout : Layout) {offset count : Nat} (some : 0 < count)
    (passes : ∀ pair ∈ layout.pairs.head?, offset ≤ pair.fragment.offset →
      offset + count < pair.fragment.offset) :
    (layout.passedBy ⟨offset, 1⟩ []).passedBy ⟨offset, count⟩ [] =
      layout.passedBy ⟨offset, count + 1⟩ [] := by
  obtain ⟨_ | ⟨pair, rest⟩⟩ := layout
  · simp [passedBy, some.ne']
  · have far := passes pair rfl
    refine congrArg vacant ?_
    simp only [List.length_nil]
    split_ifs <;> omega

namespace WellFormed

variable {layout : Layout} {size : Nat}

theorem exists_last (wf : layout.WellFormed size) {position : Nat} (shown : layout.Shows position)
    (hidden : ∀ other, position < other → ¬ layout.Shows other) :
    ∃ last, layout.pairs.getLast? = some last ∧ 0 < last.fragment.length ∧
      last.fragment.stop = position + 1 := by
  obtain ⟨pair, member, live, start, stop⟩ := id shown
  obtain ⟨last, found⟩ : ∃ last, layout.pairs.getLast? = some last :=
    Option.isSome_iff_exists.mp (by
      rw [List.getLast?_isSome]
      rintro none
      rw [none] at member
      cases member)
  have split : layout.pairs = layout.pairs.dropLast ++ last :: [] :=
    (List.dropLast_append_getLast? last found).symm
  have solid := wf.solid_of_shows shown last (member_of_split split)
  have within : last.fragment.stop ≤ position + 1 := by
    by_contra past
    exact hidden (last.fragment.stop - 1) (by omega) (wf.shows_of_split split
      (by unfold Interval.stop; omega) (by unfold Interval.stop at *; omega))
  have reaches : position < last.fragment.stop := by
    by_contra past
    exact wf.hidden_of_last found (Nat.le_of_not_lt past) shown
  exact ⟨last, found, solid, by omega⟩

end WellFormed

end Layout

def Region.Touches (region : Region) (position : Nat) : Prop :=
  region.offset ≤ position ∧ position < region.offset + max region.length 1

theorem Interval.meets_of_solid {interval : Interval} (live : interval.deleted = false)
    (solid : 0 < interval.length) (region : Region) :
    interval.Meets region ↔ ∃ position, region.Touches position ∧ interval.Covers position := by
  unfold Meets Region.Touches Covers Region.stop stop
  simp only [live, solid, if_true, true_and]
  constructor
  · intro meets
    refine ⟨max interval.offset region.offset, ?_⟩
    split_ifs at meets <;> omega
  · rintro ⟨position, touches, covers⟩
    split_ifs <;> omega

theorem Interval.meets_of_empty {interval : Interval} (empty : interval.length = 0)
    (region : Region) : interval.Meets region ↔ region.Touches interval.offset := by
  unfold Meets Region.Touches Region.stop
  simp only [empty, Nat.lt_irrefl, if_false]
  split_ifs <;> omega

namespace Projection

variable {projection : Projection} {size : Nat} {region : Region}

/-- Whether the text that an edit brings is shown depends on what is shown before, and on where the
empty fragment stands if nothing is. -/
theorem reveals_iff_shows (wf : projection.layout.WellFormed size) :
    projection.Reveals region ↔
      (∃ position, region.Touches position ∧ projection.layout.Shows position) ∨
      (∃ position, position + 1 = region.offset ∧ projection.layout.Shows position ∧
        ∀ other, position < other → ¬ projection.layout.Shows other) ∨
      (∃ offset, region.Touches offset ∧ projection.layout = .vacant offset) ∨
      (projection.options.autoExpand = true ∧ 0 < region.length) ∨
      (projection.layout.pairs = [] ∧ region.offset = 0 ∧ region.length = 0) := by
  constructor
  · rintro (⟨member, solid, meets⟩ | ⟨sole, empty, meets⟩ | ⟨found, solid, stop⟩ | ⟨on, removes⟩ |
      ⟨none, start, inserts⟩)
    · obtain ⟨position, touches, covers⟩ :=
        (Interval.meets_of_solid (wf.live _ member) solid region).mp meets
      exact .inl ⟨position, touches, _, member, covers⟩
    · next pair =>
      have silent : projection.layout.Silent := by
        rintro position ⟨other, member, -, start, stop⟩
        obtain rfl : other = pair := by simpa [sole] using member
        unfold Interval.stop at stop
        omega
      rcases wf.blank_or_vacant silent with none | ⟨offset, same⟩
      · simp [none] at sole
      · rw [same] at sole
        obtain rfl := List.singleton_inj.mp sole
        exact .inr (.inr (.inl ⟨offset, (Interval.meets_of_empty rfl region).mp meets, same⟩))
    · next last =>
      have split : projection.layout.pairs = projection.layout.pairs.dropLast ++ last :: [] :=
        (List.dropLast_append_getLast? last found).symm
      refine .inr (.inl ⟨region.offset - 1, ?_, ?_, fun other past => ?_⟩)
      · unfold Interval.stop at stop
        omega
      · exact wf.shows_of_split split (by unfold Interval.stop at stop; omega)
          (by unfold Interval.stop at *; omega)
      · exact wf.hidden_of_last found (by omega)
    · exact .inr (.inr (.inr (.inl ⟨on, removes⟩)))
    · exact .inr (.inr (.inr (.inr ⟨none, start, inserts⟩)))
  · rintro (⟨position, touches, pair, member, covers⟩ | ⟨position, next, shown, hidden⟩ |
      ⟨offset, touches, same⟩ | ⟨on, removes⟩ | ⟨none, start, inserts⟩)
    · have solid : 0 < pair.fragment.length := by
        have stop := covers.2.2
        have start := covers.2.1
        unfold Interval.stop at stop
        omega
      exact .meets member solid
        ((Interval.meets_of_solid (wf.live _ member) solid region).mpr ⟨position, touches, covers⟩)
    · obtain ⟨last, found, solid, stop⟩ := wf.exists_last shown hidden
      exact .behind found solid (stop.trans next)
    · exact .sole (congrArg Layout.pairs same) rfl ((Interval.meets_of_empty rfl region).mpr touches)
    · exact .expand on removes
    · exact .blank none start inserts

theorem reveals_of_vacant {place : Nat} (same : projection.layout = .vacant place) :
    projection.Reveals region ↔ region.Touches place ∨
      (projection.options.autoExpand = true ∧ 0 < region.length) := by
  have wf : projection.layout.WellFormed place := same ▸ .of_vacant (Nat.le_refl place)
  have hidden (position : Nat) : ¬ projection.layout.Shows position :=
    same ▸ Layout.silent_vacant place position
  have only (offset : Nat) : projection.layout = .vacant offset ↔ offset = place := by
    rw [same]
    exact ⟨fun equal => (Layout.vacant_inj equal).symm, fun equal => equal ▸ rfl⟩
  have some : projection.layout.pairs ≠ [] := by simp [same, Layout.vacant]
  rw [reveals_iff_shows wf]
  simp [hidden, only, some]

theorem reveals_of_blank (none : projection.layout.pairs = []) :
    projection.Reveals region ↔ (projection.options.autoExpand = true ∧ 0 < region.length) ∨
      (region.offset = 0 ∧ region.length = 0) := by
  have same : projection.layout = {} := congrArg Layout.mk none
  have wf : projection.layout.WellFormed 0 := same ▸ .nil
  have hidden (position : Nat) : ¬ projection.layout.Shows position := same ▸ Layout.shownBy_nil position
  have only (offset : Nat) : projection.layout ≠ .vacant offset := by simp [same, Layout.vacant]
  rw [reveals_iff_shows wf]
  simp [hidden, only, none]

theorem Reveals.longer (wf : projection.layout.WellFormed size) {offset length longer : Nat}
    (reveals : projection.Reveals ⟨offset, length⟩) (some : 0 < length) (le : length ≤ longer) :
    projection.Reveals ⟨offset, longer⟩ := by
  have touches {position : Nat} (touches : Region.Touches ⟨offset, length⟩ position) :
      Region.Touches ⟨offset, longer⟩ position := by
    unfold Region.Touches at *
    dsimp only at *
    omega
  rw [reveals_iff_shows wf] at reveals ⊢
  rcases reveals with ⟨position, here, shown⟩ | last | ⟨place, here, same⟩ | ⟨on, -⟩ | ⟨-, -, empty⟩
  · exact .inl ⟨position, touches here, shown⟩
  · exact .inr (.inl last)
  · exact .inr (.inr (.inl ⟨place, touches here, same⟩))
  · exact .inr (.inr (.inr (.inl ⟨on, Nat.lt_of_lt_of_le some le⟩)))
  · exact absurd some (by simp only at empty; omega)

theorem reveals_insertion_iff (wf : projection.layout.WellFormed size) {offset : Nat} :
    projection.Reveals ⟨offset, 0⟩ ↔ projection.layout.Shows offset ∨
      (∃ position, position + 1 = offset ∧ projection.layout.Shows position ∧
        ∀ other, position < other → ¬ projection.layout.Shows other) ∨
      projection.layout = .vacant offset ∨ (projection.layout.pairs = [] ∧ offset = 0) := by
  have here (position : Nat) : Region.Touches ⟨offset, 0⟩ position ↔ position = offset := by
    simp only [Region.Touches]
    omega
  rw [reveals_iff_shows wf]
  simp [here]

theorem hidden_from_of_reveals (wf : projection.layout.WellFormed size) {offset position : Nat}
    (reveals : projection.Reveals ⟨offset, 0⟩) (hidden : ¬ projection.layout.Shows offset)
    (above : offset ≤ position) : ¬ projection.layout.Shows position := by
  intro shown
  rcases (reveals_insertion_iff wf).mp reveals with found | ⟨last, next, -, past⟩ | same | ⟨none, -⟩
  · exact hidden found
  · exact past position (by omega) shown
  · exact Layout.silent_vacant offset position (same ▸ shown)
  · rw [Layout.Shows, none] at shown
    exact Layout.shownBy_nil position shown

theorem silent_of_outside (wf : projection.layout.WellFormed size) {layout : Layout} {text : Text}
    (outside : projection.layout.SameOutside layout region text) (silent : layout.Silent)
    (hides : ¬ projection.Reveals region) : projection.layout.Silent := by
  intro position shown
  rcases Nat.lt_or_ge position region.offset with below | above
  · exact silent position ((outside.below position below).mpr shown)
  · rcases Nat.lt_or_ge position (region.offset + region.length) with inside | past
    · exact hides ((reveals_iff_shows wf).mpr (.inl ⟨position, ⟨above, by omega⟩, shown⟩))
    · obtain ⟨i, rfl⟩ := Nat.exists_eq_add_of_le past
      exact silent _ ((outside.above i).mpr shown)

/-- What an edit of the master makes of a projection. If nothing is shown any more, an empty fragment
stands where the edit was made, or the edit passed by what was there. -/
structure Edited (before after : Projection) (region : Region) (text : Text) : Prop where
  options : after.options = before.options
  outside : before.layout.SameOutside after.layout region text
  inserted : ∀ i < text.length,
    after.layout.Shows (region.offset + i) ↔ before.Reveals region
  emptied : after.layout.Silent → before.Reveals region → after.layout = .vacant region.offset
  passed : after.layout.Silent → ¬ before.Reveals region →
    after.layout = before.layout.passedBy region text

namespace Edited

variable {before middle after left right : Projection} {text first second : Text} {offset : Nat}

/-- There is one layout only that an edit can lead to. -/
theorem unique (one : before.Edited left region text) (other : before.Edited right region text)
    (wf : left.layout.WellFormed size) (wf' : right.layout.WellFormed size) :
    left.layout = right.layout := by
  have same (position : Nat) : left.layout.Shows position ↔ right.layout.Shows position := by
    by_cases below : position < region.offset
    · exact (one.outside.below position below).trans (other.outside.below position below).symm
    · obtain ⟨i, rfl⟩ := Nat.exists_eq_add_of_le (Nat.le_of_not_lt below)
      by_cases within : i < text.length
      · exact (one.inserted i within).trans (other.inserted i within).symm
      · obtain ⟨k, rfl⟩ := Nat.exists_eq_add_of_le (Nat.le_of_not_lt within)
        rw [← Nat.add_assoc]
        exact (one.outside.above k).trans (other.outside.above k).symm
  by_cases silent : left.layout.Silent
  · have silent' : right.layout.Silent :=
      fun position shown => silent position ((same position).mpr shown)
    by_cases reveals : before.Reveals region
    · rw [one.emptied silent reveals, other.emptied silent' reveals]
    · rw [one.passed silent reveals, other.passed silent' reveals]
  · obtain ⟨position, shown⟩ := not_forall_not.mp silent
    exact wf.eq_of_shows wf' same shown

theorem silent_before (edited : before.Edited after region text) (wf : before.layout.WellFormed size)
    (silent : after.layout.Silent) (hides : ¬ before.Reveals region) : before.layout.Silent :=
  silent_of_outside wf edited.outside silent hides

theorem silent_after (edited : before.Edited after region text) (silent : before.layout.Silent)
    (hides : ¬ before.Reveals region) : after.layout.Silent := by
  intro position shown
  rcases Nat.lt_or_ge position region.offset with below | above
  · exact silent position ((edited.outside.below position below).mp shown)
  · obtain ⟨i, rfl⟩ := Nat.exists_eq_add_of_le above
    rcases Nat.lt_or_ge i text.length with within | past
    · exact hides ((edited.inserted i within).mp shown)
    · obtain ⟨k, rfl⟩ := Nat.exists_eq_add_of_le past
      rw [← Nat.add_assoc] at shown
      exact silent _ ((edited.outside.above k).mp shown)

theorem exists_vacant (edited : before.Edited middle ⟨offset, 0⟩ first)
    (wf : before.layout.WellFormed size) (silent : middle.layout.Silent)
    (hides : ¬ before.Reveals ⟨offset, 0⟩) :
    ∃ place, middle.layout = .vacant place ∧ place ≠ offset + first.length := by
  have passed := edited.passed silent hides
  rw [reveals_insertion_iff wf] at hides
  rcases wf.blank_or_vacant (edited.silent_before wf silent (mt (reveals_insertion_iff wf).mp hides))
    with none | ⟨place, stood⟩
  · rw [Layout.passedBy_of_blank none, if_pos rfl] at passed
    refine ⟨0, passed, fun same => hides (.inr (.inr (.inr ⟨none, ?_⟩)))⟩
    omega
  · rw [stood, Layout.passedBy_vacant] at passed
    refine ⟨_, passed, fun same => hides (.inr (.inr (.inl ?_)))⟩
    have here : place = offset := by
      dsimp only at same
      split_ifs at same <;> omega
    exact here ▸ stood

section
variable (edited : before.Edited middle ⟨offset, 0⟩ first) (wf : before.layout.WellFormed size)
  {sizeAfter : Nat} (wf' : middle.layout.WellFormed sizeAfter)

include edited wf wf'

theorem reveals_of_next (reveals : middle.Reveals ⟨offset + first.length, 0⟩) :
    before.Reveals ⟨offset, 0⟩ := by
  have beyond (k : Nat) : middle.layout.Shows (offset + first.length + k) ↔
      before.layout.Shows (offset + k) := edited.outside.above k
  by_contra hides
  rcases (reveals_insertion_iff wf').mp reveals with shown | ⟨position, next, shown, hidden⟩ |
    same | ⟨none, -⟩
  · exact hides ((reveals_insertion_iff wf).mpr (.inl ((beyond 0).mp shown)))
  · rcases Nat.lt_or_ge position offset with below | above
    · -- Nothing was inserted, so the last fragment ended here before.
      refine hides ((reveals_insertion_iff wf).mpr (.inr (.inl ⟨position, ?_, ?_, ?_⟩)))
      · omega
      · exact (edited.outside.below position below).mp shown
      · intro other past shown
        obtain ⟨k, rfl⟩ := Nat.exists_eq_add_of_le (show offset ≤ other by omega)
        exact hidden _ (by omega) ((beyond k).mpr shown)
    · obtain ⟨i, rfl⟩ := Nat.exists_eq_add_of_le above
      exact hides ((edited.inserted i (by omega)).mp shown)
  · obtain ⟨place, stands, apart⟩ :=
      edited.exists_vacant wf (same ▸ Layout.silent_vacant _) hides
    exact apart (Layout.vacant_inj (stands.symm.trans same))
  · have silent : middle.layout.Silent := by
      intro position shown
      rw [Layout.Shows, none] at shown
      exact Layout.shownBy_nil position shown
    obtain ⟨place, stands, -⟩ := edited.exists_vacant wf silent hides
    simp [stands, Layout.vacant] at none

theorem next_of_reveals (reveals : before.Reveals ⟨offset, 0⟩) :
    middle.Reveals ⟨offset + first.length, 0⟩ := by
  have beyond (k : Nat) : middle.layout.Shows (offset + first.length + k) ↔
      before.layout.Shows (offset + k) := edited.outside.above k
  refine (reveals_insertion_iff wf').mpr ?_
  by_cases here : before.layout.Shows offset
  · exact .inl ((beyond 0).mpr here)
  -- Nothing is shown from here on, so what was inserted comes last.
  have after (position : Nat) (above : offset + first.length ≤ position) :
      ¬ middle.layout.Shows position := by
    obtain ⟨k, rfl⟩ := Nat.exists_eq_add_of_le above
    intro shown
    exact hidden_from_of_reveals wf reveals here (Nat.le_add_right _ _) ((beyond k).mp shown)
  rcases Nat.eq_zero_or_pos first.length with empty | some
  · by_cases silent : middle.layout.Silent
    · rw [edited.emptied silent reveals, empty]
      exact .inr (.inr (.inl rfl))
    · obtain ⟨position, shown⟩ := not_forall_not.mp silent
      have below : position < offset := by
        by_contra above
        exact after position (by omega) shown
      have shownBefore := (edited.outside.below position below).mp shown
      rcases (reveals_insertion_iff wf).mp reveals with found | ⟨last, next, found, -⟩ | same |
        ⟨-, start⟩
      · exact absurd found here
      · refine .inr (.inl ⟨last, by omega, ?_, fun other past => after other (by omega)⟩)
        exact (edited.outside.below last (show last < offset by omega)).mpr found
      · exact absurd shownBefore (same ▸ Layout.silent_vacant offset position)
      · omega
  · refine .inr (.inl ⟨offset + (first.length - 1), by omega, ?_, fun other past => ?_⟩)
    · exact (edited.inserted (first.length - 1) (by omega)).mpr reveals
    · exact after other (by omega)

theorem reveals_next :
    middle.Reveals ⟨offset + first.length, 0⟩ ↔ before.Reveals ⟨offset, 0⟩ :=
  ⟨edited.reveals_of_next wf wf', edited.next_of_reveals wf wf'⟩

end

/-- Text that is inserted in two parts might as well be inserted as a whole. -/
theorem insert_trans (one : before.Edited middle ⟨offset, 0⟩ first)
    (two : middle.Edited after ⟨offset + first.length, 0⟩ second)
    (wf : before.layout.WellFormed size) {sizeBetween : Nat}
    (wf' : middle.layout.WellFormed sizeBetween) :
    before.Edited after ⟨offset, 0⟩ (first ++ second) := by
  have reveals := one.reveals_next wf wf'
  have length : (first ++ second).length = first.length + second.length := List.length_append
  have above (i : Nat) : after.layout.Shows (offset + (first ++ second).length + i) ↔
      middle.layout.Shows (offset + first.length + i) := by
    rw [length, ← Nat.add_assoc]
    exact two.outside.above i
  refine ⟨two.options.trans one.options, ⟨fun position below => ?_, fun i => ?_⟩, fun i within => ?_,
    fun silent shown => ?_, fun silent hides => ?_⟩
  · exact (two.outside.below position (Nat.lt_add_right _ below)).trans
      (one.outside.below position below)
  · exact (above i).trans (one.outside.above i)
  · rcases Nat.lt_or_ge i first.length with inFirst | inSecond
    · exact (two.outside.below (offset + i) (Nat.add_lt_add_left inFirst _)).trans
        (one.inserted i inFirst)
    · obtain ⟨k, rfl⟩ := Nat.exists_eq_add_of_le inSecond
      rw [← Nat.add_assoc]
      exact (two.inserted k (by omega)).trans reveals
  · have none : first = [] := by
      by_contra some
      have inserted := (one.inserted 0 (List.length_pos_iff.mpr some)).mpr shown
      exact silent offset ((two.outside.below offset (Nat.lt_add_of_pos_right
        (List.length_pos_iff.mpr some))).mpr inserted)
    rw [two.emptied silent (reveals.mpr shown), none]
    rfl
  · have hides' := mt reveals.mp hides
    have silent' := two.silent_before wf' silent hides'
    rw [two.passed silent hides', one.passed silent' hides, Layout.passedBy_insert]

theorem reveals_rest (one : before.Edited middle ⟨offset, 1⟩ []) {count : Nat} (some : 0 < count)
    (wf : before.layout.WellFormed size) (silent : middle.layout.Silent) :
    middle.Reveals ⟨offset, count⟩ ↔ before.Reveals ⟨offset, count + 1⟩ := by
  by_cases first : before.Reveals ⟨offset, 1⟩
  · have here : Region.Touches ⟨offset, count⟩ offset := ⟨Nat.le_refl _, by simp only; omega⟩
    exact iff_of_true ((reveals_of_vacant (one.emptied silent first)).mpr (.inl here))
      (first.longer wf Nat.one_pos (Nat.le_add_left 1 count))
  · have passed := one.passed silent first
    rcases wf.blank_or_vacant (one.silent_before wf silent first) with none | ⟨place, same⟩
    · rw [Layout.passedBy_of_blank none, if_neg Nat.one_ne_zero] at passed
      rw [reveals_of_blank none, reveals_of_blank (congrArg Layout.pairs passed), one.options]
      simp [some, some.ne']
    · rw [same, Layout.passedBy_vacant] at passed
      have away : ¬ Region.Touches ⟨offset, 1⟩ place := fun touches =>
        first ((reveals_of_vacant same).mpr (.inl touches))
      rw [reveals_of_vacant same, reveals_of_vacant passed, one.options]
      refine or_congr ?_ (by simp [some])
      simp only [Region.Touches, List.length_nil] at away ⊢
      split_ifs <;> omega

/-- Characters that are removed one after the other might as well be removed at once. -/
theorem remove_trans (one : before.Edited middle ⟨offset, 1⟩ []) {count : Nat} (some : 0 < count)
    (two : middle.Edited after ⟨offset, count⟩ []) (wf : before.layout.WellFormed size)
    {sizeBetween : Nat} (wf' : middle.layout.WellFormed sizeBetween) :
    before.Edited after ⟨offset, count + 1⟩ [] := by
  have outside : before.layout.SameOutside after.layout ⟨offset, count + 1⟩ [] := by
    refine ⟨fun position below => ?_, fun i => ?_⟩
    · exact (two.outside.below position below).trans (one.outside.below position below)
    · have first := one.outside.above (count + i)
      simp only [List.length_nil, Nat.add_zero, ← Nat.add_assoc] at first
      refine (two.outside.above i).trans (first.trans (iff_of_eq (congrArg _ ?_)))
      simp only
      omega
  refine ⟨two.options.trans one.options, outside, nofun, fun silent shown => ?_,
    fun silent hides => ?_⟩
  · by_cases shown' : middle.Reveals ⟨offset, count⟩
    · exact two.emptied silent shown'
    · have silent' := two.silent_before wf' silent shown'
      exact absurd ((one.reveals_rest some wf silent').mpr shown) shown'
  · -- Nothing was shown from the beginning, so both removals passed by.
    have silentBefore := silent_of_outside wf outside silent hides
    have first : ¬ before.Reveals ⟨offset, 1⟩ := fun reveals =>
      hides (reveals.longer wf Nat.one_pos (Nat.le_add_left 1 count))
    have silent' := one.silent_after silentBefore first
    rw [two.passed silent (mt (one.reveals_rest some wf silent').mp hides), one.passed silent' first]
    refine before.layout.passedBy_remove some fun pair found above => ?_
    rcases wf.blank_or_vacant silentBefore with none | ⟨place, same⟩
    · simp [none] at found
    · have away : ¬ Region.Touches ⟨offset, count + 1⟩ place := fun touches =>
        hides ((reveals_of_vacant same).mpr (.inl touches))
      rw [same] at found
      obtain rfl := Option.some.inj found
      simp only [Region.Touches] at away above ⊢
      omega

end Edited

end Projection

/-! How a projection comes to be edited -/

theorem Interval.drift_empty {place : Nat} {splice : Splice}
    (away : place < splice.offset ∨ splice.offset + max splice.removed 1 ≤ place) :
    Interval.drift splice .lastGrows true ⟨place, 0, false⟩ =
      ⟨if place ≤ splice.offset then place else splice.carry place, 0, false⟩ := by
  have remains : ¬ Interval.Vanishes splice ⟨place, 0, false⟩ := by
    simp only [Vanishes, stop]
    omega
  have untaken : ¬ Interval.Takes splice .lastGrows true ⟨place, 0, false⟩ := by
    simp only [Takes, stop]
    omega
  have same : Interval.stopAfter splice .lastGrows true ⟨place, 0, false⟩ =
      Interval.startAfter splice ⟨place, 0, false⟩ := by
    simp only [stopAfter, startAfter, untaken, false_or, stop, Nat.add_zero, ← Nat.not_le, ite_not]
  rw [drift_eq rfl, if_neg remains, same, Nat.sub_self, startAfter]

namespace Layout.WellFormed

variable {layout : Layout} {text : Text} {edit : Edit}

theorem follow_emptied (wf : layout.WellFormed text.length)
    (inside : edit.region.Inside text.length)
    (admits : layout.Admits edit.region.offset)
    (silent : ((layout.drift edit.splice .lastGrows).normalForm edit.region.offset).Silent) :
    (layout.drift edit.splice .lastGrows).normalForm edit.region.offset =
      vacant edit.region.offset := by
  obtain ⟨-, shows⟩ := wf.follow inside
  have outside := sameOutside_of_showsAfter shows
  have bound := Region.inside_iff.mp inside
  have none : edit.text.length = 0 := by
    by_contra some
    exact silent _ ((shows_inserted shows (Nat.pos_of_ne_zero some)).mpr admits)
  have vacant' : (Layout.vacant edit.region.offset).WellFormed text.length := .of_vacant (by omega)
  -- Outside of the region nothing was shown before, and what was shown within makes no difference.
  have same := wf.follow_congr vacant' inside admits (.inr ⟨_, rfl, rfl⟩)
    fun position uncovered => iff_of_false (fun shown => by
      rcases Nat.lt_or_ge position edit.region.offset with below | above
      · exact silent position ((outside.below position below).mpr shown)
      · obtain ⟨i, rfl⟩ := Nat.exists_eq_add_of_le (show edit.region.stop ≤ position from
          Nat.le_of_not_lt fun stop => uncovered ⟨above, stop⟩)
        exact silent _ ((outside.above i).mpr shown)) (silent_vacant _ position)
  refine same.trans (vacant'.normalForm_of_removed none (by simp [Layout.vacant]) ?_)
  intro pair member
  obtain rfl := List.mem_singleton.mp member
  exact ⟨Nat.le_refl _, Nat.le_add_right _ _⟩

theorem follow_vacant {place : Nat}
    (away : ¬ edit.region.Touches place) :
    ((Layout.vacant place).drift edit.splice .lastGrows).normalForm edit.region.offset =
      (Layout.vacant place).passedBy edit.region edit.text := by
  have stays : Interval.drift edit.splice .lastGrows true ⟨place, 0, false⟩ =
      ⟨if place ≤ edit.region.offset then place
        else place - edit.region.length + edit.text.length, 0, false⟩ := by
    have start : edit.splice.offset = edit.region.offset := rfl
    have removed : edit.splice.removed = edit.region.length := rfl
    have inserted : edit.splice.inserted = edit.text.length := rfl
    unfold Region.Touches at away
    rw [Interval.drift_empty (by omega)]
    refine congrArg (Interval.mk · 0 false) ?_
    by_cases early : place ≤ edit.region.offset
    · exact (if_pos early).trans (if_pos early).symm
    · refine (if_neg early).trans (Eq.trans ?_ (if_neg early).symm)
      unfold Splice.carry
      split_ifs <;> omega
  have drifted : (Layout.vacant place).drift edit.splice .lastGrows =
      ⟨[⟨Interval.drift edit.splice .lastGrows true ⟨place, 0, false⟩, ⟨0, 0, false⟩⟩]⟩ := rfl
  rw [drifted, stays, passedBy_vacant]
  simp [normalForm, condense, showsNothing, sift, fuse, fuseFrom, layOut, tile, Pair.deleted,
    Layout.vacant]

end Layout.WellFormed

end TextProjection
