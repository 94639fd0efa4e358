/-!
Numbers in text: hexadecimal with the mark `0x` and lower-case digits, and
decimal reading, which takes the ten ASCII digits and nothing else.
-/

namespace ErasureField.Text

def hexDigits (n : Nat) : String := String.ofList (Nat.toDigits 16 n)

/-- A number in hexadecimal, marked by `0x`. -/
def hex (n : Nat) : String := "0x" ++ hexDigits n

def isDigit (c : Char) : Bool := decide ('0' ≤ c ∧ c ≤ '9')

/-- The number that digits stand for, most significant first. -/
def digitsValue (digits : List Char) : Nat :=
  digits.foldl (fun value c => 10 * value + (c.toNat - '0'.toNat)) 0

/-- Reads a nonempty run of ASCII digits. Leading zeros are allowed; a sign or
any other character is not. -/
def decimal? (text : List Char) : Option Nat :=
  if !text.isEmpty && text.all isDigit then some (digitsValue text) else none

end ErasureField.Text
