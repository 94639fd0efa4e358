import ErasureField.Check
import ErasureField.FieldChoice
import ErasureField.Registry

/-!
Binary fields. A field is a handle on published tables, so two handles are equal
when they share their tables, which is when they have the same width and
polynomial. Its operations check their operands in the order in which they stand
and refuse the first that is not an element, and only then a zero divisor.
-/

namespace ErasureField

structure BinaryField where
  shared : SharedTables

/-- Fields are equal when they share their tables. -/
instance : BEq BinaryField where
  beq f g := f.shared.position == g.shared.position

namespace BinaryField

def ofWidth (w : Width) : Step Registry BinaryField :=
  BinaryField.mk <$> (Registry.defaultTables w).withOperation "GaloisField::new"

def ofModulus (m : Modulus) : Step Registry BinaryField :=
  BinaryField.mk <$> (Registry.tablesFor m).withOperation "GaloisField::with_polynomial"

def ofChoice (choice : FieldChoice) : Step Registry BinaryField :=
  match choice.polynomial with
  | some p => ofModulus ⟨choice.width, p⟩
  | none => ofWidth choice.width

def tables (f : BinaryField) : TableSet := f.shared.tables

def width (f : BinaryField) : Width := f.tables.width

def polynomial (f : BinaryField) : UInt64 := f.tables.polynomial

def describe (f : BinaryField) : String := f.tables.modulus.describe

def add (f : BinaryField) (a b : UInt32) : Outcome UInt32 := do
  Check.element "add" a f.width
  Check.element "add" b f.width
  return a ^^^ b

def mul (f : BinaryField) (a b : UInt32) : Outcome UInt32 := do
  Check.element "multiply" a f.width
  Check.element "multiply" b f.width
  f.tables.mul a b

def div (f : BinaryField) (a b : UInt32) : Outcome UInt32 := do
  Check.element "divide" a f.width
  Check.element "divide" b f.width
  Check.nonzero "divide" b
  f.tables.div a b

def inv (f : BinaryField) (a : UInt32) : Outcome UInt32 := do
  Check.element "inverse" a f.width
  Check.nonzero "inverse" a
  f.tables.inv a

/-- Power of an element; the power with exponent zero is one. -/
def pow (f : BinaryField) (a : UInt32) (e : Nat) : Outcome UInt32 := do
  Check.element "pow" a f.width
  f.tables.pow a e

end BinaryField

namespace Width

def mul (w : Width) (a b : UInt32) : Step Registry UInt32 := do
  let f ← BinaryField.ofWidth w
  f.mul a b

def div (w : Width) (a b : UInt32) : Step Registry UInt32 := do
  let f ← BinaryField.ofWidth w
  f.div a b

def inv (w : Width) (a : UInt32) : Step Registry UInt32 := do
  let f ← BinaryField.ofWidth w
  f.inv a

end Width

end ErasureField
