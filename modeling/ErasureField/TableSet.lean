import ErasureField.ByteProduct
import ErasureField.PartialProduct

/-!
The tables of one field and arithmetic by them. A field of width 8 has all its
products in a table, one of width 16 adds logarithms, and one of width 32 adds
partial products; quotients use logarithms where there are any and powers where
there are none. A polynomial is admitted when it has the degree of its width and
a constant term and when `x` generates every nonzero element.

The arithmetic takes operands that are elements already and divisors that are not
zero. Both are checked by the field that owns the tables.
-/

namespace ErasureField

/-- Refuses a polynomial whose degree is not the width, or that `x` divides. -/
def Modulus.checkShape (m : Modulus) : Outcome Unit :=
  if m.polynomial >>> UInt64.ofNat m.width.bits ≠ 1 then
    .misconfigured "field polynomial" (.wrongDegree m)
  else if m.polynomial &&& 1 = 0 then
    .misconfigured "field polynomial" (.divisibleByX m)
  else .ok ()

inductive Layout where
  | gf8 (logs : Logarithms UInt8) (products : ByteProducts)
  | gf16 (logs : Logarithms UInt16)
  | gf32 (products : PartialProducts)

namespace Layout

def width : Layout → Width
  | .gf8 .. => .w8
  | .gf16 .. => .w16
  | .gf32 .. => .w32

def name : Layout → String
  | .gf8 .. => "Gf8"
  | .gf16 .. => "Gf16"
  | .gf32 .. => "Gf32"

def logCount : Layout → Nat
  | .gf8 logs _ => logs.log.size
  | .gf16 logs => logs.log.size
  | .gf32 _ => 0

def antilogCount : Layout → Nat
  | .gf8 logs _ => logs.antilog.size
  | .gf16 logs => logs.antilog.size
  | .gf32 _ => 0

def byteCount (layout : Layout) : Nat :=
  match layout with
  | .gf8 .. => layout.logCount + layout.antilogCount + ByteProducts.entryCount
  | .gf16 .. => 2 * (layout.logCount + layout.antilogCount)
  | .gf32 .. => 4 * (PartialProducts.tableCount * PartialProducts.entryCount)

/-- Builds the tables that the width of a modulus asks for. -/
def build (m : Modulus) : Outcome Layout :=
  match m.width with
  | .w8 => do
    let logs ← Logarithms.build UInt8 m
    return .gf8 logs (← ByteProducts.build logs)
  | .w16 => return .gf16 (← Logarithms.build UInt16 m)
  | .w32 =>
    if m.isPrimitive then return .gf32 (PartialProducts.build m.polynomial)
    else .misconfigured "split table construction" (.notGenerating m)

end Layout

structure TableSet where
  polynomial : UInt64
  layout : Layout

namespace TableSet

/-- Builds the tables of a field, if its polynomial is admitted. -/
def build (m : Modulus) : Outcome TableSet := do
  m.checkShape
  return ⟨m.polynomial, ← Layout.build m⟩

def width (t : TableSet) : Width := t.layout.width

def modulus (t : TableSet) : Modulus := ⟨t.width, t.polynomial⟩

def describe (t : TableSet) : String :=
  "FieldTables \x7b width: " ++ t.width.label ++ ", polynomial: " ++
    Text.hex t.polynomial.toNat ++ ", bytes: " ++ toString t.layout.byteCount ++ " \x7d"

/-- The logarithm of an element. Zero, numbers outside the field and elements of
a field without logarithms have none. -/
def log? (t : TableSet) (a : UInt32) : Outcome (Option Nat) :=
  if a = 0 ∨ t.width.contains a.toNat = false then .ok none
  else
    match t.layout with
    | .gf8 logs _ => return some (← logs.logOf a)
    | .gf16 logs => return some (← logs.logOf a)
    | .gf32 _ => .ok none

/-- The power of `x` with any exponent, where the field has a table of powers. -/
def antilog? (t : TableSet) (i : Nat) : Outcome (Option UInt32) :=
  let i := i % t.width.order
  match t.layout with
  | .gf8 logs _ => return some (← logs.powerOf i)
  | .gf16 logs => return some (← logs.powerOf i)
  | .gf32 _ => .ok none

def mul (t : TableSet) (a b : UInt32) : Outcome UInt32 :=
  match t.layout with
  | .gf8 _ products => .ok (products.mul a.toUInt8 b.toUInt8).toUInt32
  | .gf16 logs => logs.mul a b
  | .gf32 products => .ok (products.mul a b)

def div (t : TableSet) (a b : UInt32) : Outcome UInt32 :=
  match t.layout with
  | .gf8 logs _ => logs.div a b
  | .gf16 logs => logs.div a b
  | .gf32 products => .ok (if a = 0 then 0 else products.mul a (products.inv b))

def inv (t : TableSet) (a : UInt32) : Outcome UInt32 :=
  match t.layout with
  | .gf8 logs _ => logs.inv a
  | .gf16 logs => logs.inv a
  | .gf32 products => .ok (products.inv a)

/-- Power of an element. Partial products are used for exponents below the order
only, after zero exponents and a zero element are set apart. -/
def pow (t : TableSet) (a : UInt32) (e : Nat) : Outcome UInt32 :=
  match t.layout with
  | .gf8 logs _ => logs.pow a e
  | .gf16 logs => logs.pow a e
  | .gf32 products =>
    .ok (if e = 0 then 1 else if a = 0 then 0 else products.pow a (e % t.width.order))

end TableSet

end ErasureField
