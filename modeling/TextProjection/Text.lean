import TextProjection.Region

/-! A text is a sequence of characters; the positions in it are those of the characters.

A line ends at a line feed, a carriage return, the two of them in that order as one break,
a vertical tab, a form feed, U+0085, U+2028 or U+2029, so a text has one line more than it
has breaks.
-/

set_option autoImplicit false

namespace TextProjection

abbrev Text := List Char

namespace Text

def slice (text : Text) (region : Region) : Text :=
  (text.drop region.offset).take region.length

def splice (text : Text) (region : Region) (replacement : Text) : Text :=
  text.take region.offset ++ replacement ++ text.drop (region.offset + region.length)

theorem length_slice {text : Text} {region : Region} (inside : region.Inside text.length) :
    (text.slice region).length = region.length := by
  have := Region.inside_iff.mp inside
  simp only [slice, List.length_take, List.length_drop]
  omega

theorem length_splice {text : Text} {region : Region} (inside : region.Inside text.length)
    (replacement : Text) :
    (text.splice region replacement).length =
      text.length - region.length + replacement.length := by
  have := Region.inside_iff.mp inside
  simp only [splice, List.length_append, List.length_take, List.length_drop]
  omega

def isBreak (c : Char) : Bool :=
  c == '\n' || c == '\r' || c == '\x0b' || c == '\x0c' ||
    c == '\u0085' || c == '\u2028' || c == '\u2029'

def breakStops (offset : Nat) : Text → List Nat
  | [] => []
  | '\r' :: '\n' :: rest => (offset + 2) :: breakStops (offset + 2) rest
  | c :: rest =>
    if isBreak c then (offset + 1) :: breakStops (offset + 1) rest
    else breakStops (offset + 1) rest

def lineCount (text : Text) : Nat := (breakStops 0 text).length + 1

/-- The line of an offset: the number of breaks that end at or before it. An offset
between the two characters of one break is still on the line which that break ends. -/
def lineOf (text : Text) (offset : Nat) : Nat := (breakStops 0 text).countP (· ≤ offset)

theorem lineOf_lt_lineCount (text : Text) (offset : Nat) : text.lineOf offset < text.lineCount :=
  Nat.lt_succ_of_le List.countP_le_length

end Text

end TextProjection
