/-!
The widths of binary field that erasure codes use: 8, 16 and 32 bits. An element
of width `w` is a residue of polynomials over GF(2) modulo a polynomial of degree
`w`, held as the `w` bits of its coefficients, lowest degree first. Everything
that depends on the width alone is a constant of it and stands here.
-/

namespace ErasureField

/-- The generator of every field: the polynomial `x`. -/
def generator : UInt32 := 2

def byteValues : Nat := 256

structure Params where
  bits : Nat
  polynomial : UInt64
  generator : UInt32
  order : Nat
  elementBytes : Nat
  orderFactors : List Nat

inductive Width where
  | w8
  | w16
  | w32
  deriving DecidableEq, Hashable

namespace Width

def all : List Width := [.w8, .w16, .w32]

def index : Width → Nat
  | .w8 => 0
  | .w16 => 1
  | .w32 => 2

/-- A narrower width comes before a wider one. -/
instance : Ord Width where
  compare a b := compare a.index b.index

/-- The constants of each width. The default polynomials are
`x^8 + x^4 + x^3 + x^2 + 1`, `x^16 + x^12 + x^3 + x + 1` and
`x^32 + x^22 + x^2 + x + 1`. -/
def params : Width → Params
  | .w8 => {
      bits := 8
      polynomial := 0x11D
      generator := generator
      order := 0xFF
      elementBytes := 1
      orderFactors := [3, 5, 17] }
  | .w16 => {
      bits := 16
      polynomial := 0x1100B
      generator := generator
      order := 0xFFFF
      elementBytes := 2
      orderFactors := [3, 5, 17, 257] }
  | .w32 => {
      bits := 32
      polynomial := 0x100400007
      generator := generator
      order := 0xFFFFFFFF
      elementBytes := 4
      orderFactors := [3, 5, 17, 257, 65537] }

def bits (w : Width) : Nat := w.params.bits

def elementBytes (w : Width) : Nat := w.params.elementBytes

def order (w : Width) : Nat := w.params.order

def maxElement (w : Width) : UInt32 := UInt32.ofNat w.order

def defaultPolynomial (w : Width) : UInt64 := w.params.polynomial

def contains (w : Width) (value : Nat) : Bool := decide (value ≤ w.order)

def ofBits? (bits : Nat) : Option Width := all.find? fun w => w.bits = bits

/-- The name of the field of this width, such as `GF(2^8)`. -/
def name (w : Width) : String := "GF(2^" ++ toString w.bits ++ ")"

/-- The short label of this width, such as `W8`. -/
def label (w : Width) : String := "W" ++ toString w.bits

theorem index_lt (w : Width) : w.index < 3 := by
  cases w <;> decide

theorem index_inj {v w : Width} (h : v.index = w.index) : v = w := by
  revert h
  cases v <;> cases w <;> decide

theorem elementBytes_pos (w : Width) : 0 < w.elementBytes := by
  cases w <;> decide

theorem elementBytes_mul_eight (w : Width) : w.elementBytes * 8 = w.bits := by
  cases w <;> rfl

theorem order_add_one (w : Width) : w.order + 1 = 1 <<< w.bits := by
  cases w <;> rfl

theorem contains_iff (w : Width) (value : Nat) :
    w.contains value = true ↔ value ≤ w.order := by
  simp [contains]

theorem ofBits?_bits (w : Width) : ofBits? w.bits = some w := by
  cases w <;> rfl

end Width

end ErasureField
