import ErasureField.Width
import ErasureField.Text.Numeral

/-!
Residue arithmetic without tables. A modulus is a width together with a
polynomial over GF(2); its operations shift, test the bit that left the width and
add the polynomial when that bit is set. They are slow and define what every
table holds: the tables of a field are built from `timesX`, and the polynomials
that give a field are told apart by the order of `x`.

The polynomial may be any 64-bit word. Whether it has the degree of the width is
checked where a field is built, not here.
-/

namespace ErasureField

structure Modulus where
  width : Width
  polynomial : UInt64
  deriving DecidableEq, Hashable

/-- Sum of the words `a`, `double a`, `double (double a)`, … that belong to the
set bits among the lowest `n` bits of `b`. -/
@[specialize]
def shiftAdd (double : UInt64 → UInt64) : Nat → UInt64 → UInt64 → UInt64
  | 0, _, _ => 0
  | n + 1, a, b =>
    (if b &&& 1 = 1 then a else 0) ^^^ shiftAdd double n (double a) (b >>> 1)

/-- Product of two bytes as polynomials, not reduced; its degree is at most 14. -/
def carrylessProduct (a b : UInt8) : UInt32 :=
  (shiftAdd (· <<< 1) 8 a.toUInt64 b.toUInt64).toUInt32

/-- Square and multiply over the lowest `n` bits of the exponent: `result` times
the power of `base`. -/
def raiseBits {α : Type} (mul : α → α → α) : Nat → α → α → Nat → α
  | 0, result, _, _ => result
  | n + 1, result, base, e =>
    raiseBits mul n (if e % 2 = 1 then mul result base else result) (mul base base) (e / 2)

def raise {α : Type} (mul : α → α → α) (one base : α) (e : Nat) : α :=
  raiseBits mul (e.log2 + 1) one base e

namespace Modulus

def ofWidth (w : Width) : Modulus := ⟨w, w.defaultPolynomial⟩

/-- Multiplies by `x` and reduces: the polynomial is added when the shift moves a
bit out of the width. -/
def timesX (m : Modulus) (a : UInt64) : UInt64 :=
  let shifted := a <<< 1
  if (shifted >>> UInt64.ofNat m.width.bits) &&& 1 = 1 then shifted ^^^ m.polynomial
  else shifted

def timesXPow (m : Modulus) : Nat → UInt64 → UInt64
  | 0, a => a
  | n + 1, a => m.timesXPow n (m.timesX a)

def mul (m : Modulus) (a b : UInt64) : UInt64 := shiftAdd m.timesX 64 a b

def pow (m : Modulus) (base : UInt64) (e : Nat) : UInt64 := raise m.mul 1 base e

/-- Order test: `x` generates all `2^w - 1` nonzero elements when its power with
that exponent is one and its power with that exponent divided by each of its
prime factors is not. -/
def isPrimitive (m : Modulus) : Bool :=
  let x := generator.toUInt64
  let order := m.width.order
  m.pow x order == 1 && m.width.params.orderFactors.all fun q => m.pow x (order / q) != 1

def describe (m : Modulus) : String :=
  "GaloisField \x7b width: " ++ m.width.label ++ ", polynomial: " ++
    Text.hex m.polynomial.toNat ++ " \x7d"

end Modulus

end ErasureField
