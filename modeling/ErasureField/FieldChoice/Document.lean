import ErasureField.FieldChoice
import ErasureField.Json
import ErasureField.Width.Reading

/-!
Choices of a field as JSON. A choice is an object with a width, which is an
integer, and a polynomial, which is an integer, `null` or left out; other members
are passed over. It may also be an array of the width and, if need be, the
polynomial. Of an object the polynomial is looked at first and then the width, of
an array the width first.

The object is a value that was read before, in which the last of several members with
one key counts; that a key stands twice is therefore no error here.

A value without this form is malformed. A width that is an integer of 32 bits but
no width of a field is refused by name.
-/

namespace ErasureField.FieldChoice

inductive DocumentError where
  | malformed
  | refused (failure : Failure)

/-- A choice as JSON, its width before its polynomial. -/
def toJson (choice : FieldChoice) : Json :=
  let polynomial :=
    match choice.polynomial with
    | some p => Json.ofNat p.toNat
    | none => .null
  .object [("width", .ofNat choice.width.bits), ("polynomial", polynomial)]

def polynomialLimit : Nat := 0x10000000000000000

/-- The natural number below a limit that a value is. -/
def naturalBelow? (limit : Nat) : Json → Option Nat
  | .integer value => if 0 ≤ value ∧ value < limit then some value.toNat else none
  | _ => none

def widthOf (value : Json) : Except DocumentError Width :=
  match naturalBelow? Width.readingLimit value with
  | some bits => (Width.ofBits bits).mapError .refused
  | none => .error .malformed

def polynomialOf (value : Json) : Except DocumentError (Option UInt64) :=
  match value with
  | .null => .ok none
  | value =>
    match naturalBelow? polynomialLimit value with
    | some p => .ok (some (UInt64.ofNat p))
    | none => .error .malformed

def ofMembers (members : List (String × Json)) : Except DocumentError FieldChoice := do
  let polynomial ← polynomialOf ((Json.member? members "polynomial").getD .null)
  match Json.member? members "width" with
  | some value => return ⟨← widthOf value, polynomial⟩
  | none => .error .malformed

def ofItems : List Json → Except DocumentError FieldChoice
  | [] => .error .malformed
  | first :: rest => do
    let width ← widthOf first
    match rest with
    | [] => return ofWidth width
    | [second] => return ⟨width, ← polynomialOf second⟩
    | _ => .error .malformed

def ofJson : Json → Except DocumentError FieldChoice
  | .object members => ofMembers members
  | .array items => ofItems items
  | _ => .error .malformed

end ErasureField.FieldChoice
