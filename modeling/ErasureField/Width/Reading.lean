import ErasureField.Outcome
import ErasureField.Text.Blank

/-!
Widths from outside: a number of bits, or a text such as `16`, `w16` or ` W+016 `.
A text is trimmed, may begin with the letter w of either case and then a plus
sign, and goes on with ASCII digits that stand for a number below `2^32`. A text
that reads as a number no field has is refused for the number, any other for the
text as it was given.
-/

namespace ErasureField.Width

/-- Numbers below this limit, `2^32`, are read as numbers of bits. -/
def readingLimit : Nat := 0x100000000

def ofBits (bits : Nat) : Outcome Width :=
  match ofBits? bits with
  | some width => .ok width
  | none => .misconfigured "FieldWidth" (.unsupportedWidth bits)

/-- What is left of a trimmed text after the letter w, if it begins with one. -/
def afterLetter : List Char → List Char
  | 'w' :: rest => rest
  | 'W' :: rest => rest
  | text => text

/-- What is left of a text after a plus sign, if it begins with one. -/
def afterPlus : List Char → List Char
  | '+' :: rest => rest
  | text => text

def statedBits? (text : List Char) : Option Nat :=
  (Text.decimal? (afterPlus (afterLetter (Text.trim text)))).filter (· < readingLimit)

def read (text : String) : Outcome Width :=
  match statedBits? text.toList with
  | some bits => ofBits bits
  | none => .misconfigured "FieldWidth" (.unreadableWidth text)

theorem ofBits_bits (w : Width) : ofBits w.bits = .ok w := by
  simp [ofBits, ofBits?_bits]

end ErasureField.Width
