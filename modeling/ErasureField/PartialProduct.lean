import ErasureField.Modulus

/-!
Partial products for elements of 32 bits. Byte `i` of one factor times byte `j` of
the other is the unreduced product of the two bytes, multiplied by `x` another
`8 (i + j)` times. It depends on the two bytes and on `i + j`, which is at most 6, so
seven tables hold all partial products, and a product is the sum of sixteen of
them. Table `k` holds the products that are moved up by `k` bytes; the first byte
of a pair is the high half of its index.

The tables take any polynomial. Only its 32 low bits have an effect, because the
bits above them are shifted out and never stored.
-/

namespace ErasureField

def xorSum (elements : List UInt32) : UInt32 := elements.foldr (· ^^^ ·) 0

def byteOf (a : UInt32) (i : Nat) : UInt8 := (a >>> UInt32.ofNat (8 * i)).toUInt8

abbrev PairTable := Vector UInt32 65536

def PairTable.lookup (table : PairTable) (a b : UInt8) : UInt32 :=
  table.get ⟨256 * a.toNat + b.toNat, by have := a.toNat_lt; have := b.toNat_lt; omega⟩

theorem PairTable.lookup_ofFn (f : Fin 65536 → UInt32) (a b : UInt8) :
    PairTable.lookup (Vector.ofFn f) a b =
      f ⟨256 * a.toNat + b.toNat, by have := a.toNat_lt; have := b.toNat_lt; omega⟩ :=
  Vector.getElem_ofFn _

theorem PairTable.lookup_map (f : UInt32 → UInt32) (table : PairTable) (a b : UInt8) :
    PairTable.lookup (table.map f) a b = f (table.lookup a b) :=
  Vector.getElem_map f _

def unreducedProducts : PairTable :=
  Vector.ofFn fun i => carrylessProduct (UInt8.ofNat (i / 256)) (UInt8.ofNat i)

/-- Multiplies by `x` eight times and keeps 32 bits. -/
def timesXEight (m : Modulus) (a : UInt32) : UInt32 :=
  (m.timesXPow 8 a.toUInt64).toUInt32

abbrev PartialProducts.tableCount : Nat := 7

structure PartialProducts where
  tables : Vector PairTable PartialProducts.tableCount

namespace PartialProducts

def entryCount : Nat := byteValues * byteValues

def build (polynomial : UInt64) : PartialProducts :=
  let moved (table : PairTable) : PairTable := table.map (timesXEight ⟨.w32, polynomial⟩)
  let t0 := unreducedProducts
  let t1 := moved t0
  let t2 := moved t1
  let t3 := moved t2
  let t4 := moved t3
  let t5 := moved t4
  let t6 := moved t5
  ⟨#v[t0, t1, t2, t3, t4, t5, t6]⟩

/-- The partial product of byte `i` of `a` and byte `j` of `b`. -/
def partialProduct (t : PartialProducts) (a b : UInt32) (i j : Fin 4) : UInt32 :=
  (t.tables.get ⟨i + j, show i.val + j.val < 7 by omega⟩).lookup (byteOf a i) (byteOf b j)

/-- Product: the sum of all partial products. Zero bytes of the first factor have
none. -/
def mul (t : PartialProducts) (a b : UInt32) : UInt32 :=
  if a = 0 ∨ b = 0 then 0
  else
    xorSum <| (List.finRange 4).map fun (i : Fin 4) =>
      if byteOf a i = 0 then 0
      else xorSum <| (List.finRange 4).map fun (j : Fin 4) => t.partialProduct a b i j

def pow (t : PartialProducts) (base : UInt32) (e : Nat) : UInt32 := raise t.mul 1 base e

/-- Inverse of a nonzero element: its power with exponent `2^32 - 2`. -/
def inv (t : PartialProducts) (a : UInt32) : UInt32 := t.pow a 0xFFFFFFFE

end PartialProducts

end ErasureField
