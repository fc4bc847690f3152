/-! Positions and lengths count characters and are 64-bit words. A sum that is not a
word stops the program, unless it was formed with care. A region is a half-open range of
characters, given by its offset and length.
-/

set_option autoImplicit false

namespace TextProjection

namespace Offset

def bound : Nat := 18446744073709551616

def add? (a b : Nat) : Option Nat := if a + b < bound then some (a + b) else none

/-- Product, cut off at the greatest word. -/
def mulCapped (a b : Nat) : Nat := min (a * b) (bound - 1)

theorem add?_eq_some_iff {a b c : Nat} : add? a b = some c ↔ a + b = c ∧ c < bound := by
  unfold add?
  split
  · simp only [Option.some.injEq]
    omega
  · simp only [reduceCtorEq, false_iff]
    omega

end Offset

structure Region where
  offset : Nat
  length : Nat
  deriving DecidableEq, Repr

namespace Region

def isEmpty (region : Region) : Bool := region.length == 0

def stop (region : Region) : Nat := region.offset + region.length

def stop? (region : Region) : Option Nat := Offset.add? region.offset region.length

def ofBounds (start stop : Nat) : Region := ⟨start, stop - start⟩

def precedes (a b : Region) : Bool :=
  a.offset < b.offset || (a.offset == b.offset && a.length ≤ b.length)

def sort (regions : List Region) : List Region := regions.mergeSort precedes

def Inside (region : Region) (size : Nat) : Prop :=
  region.offset ≤ size ∧ region.length ≤ size - region.offset

instance (region : Region) (size : Nat) : Decidable (region.Inside size) :=
  inferInstanceAs (Decidable (_ ∧ _))

theorem inside_iff {region : Region} {size : Nat} :
    region.Inside size ↔ region.offset + region.length ≤ size := by
  unfold Inside
  omega

end Region

end TextProjection
