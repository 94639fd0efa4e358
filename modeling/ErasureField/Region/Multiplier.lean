import ErasureField.TableSet
import ErasureField.Word

/-!
Multiplication of whole words by one constant. It is linear, so the product of an
element is the sum of the products of its bytes, each taken at its place, the
lowest byte first. For each place a table holds the 256 products, made from those
of the eight bits; a field of width 8 has it as a row of its products. A word holds
as many elements as fit in eight bytes, and they are multiplied apart from each
other.
-/

namespace ErasureField

structure Multiplier where
  width : Width
  lanes : List (ByteTable UInt32)

namespace Multiplier

/-- Sum of the entries that belong to the set bits of a byte, the first entry to
the lowest bit. -/
def combine : List UInt32 → UInt8 → UInt32
  | [], _ => 0
  | entry :: rest, b => (if b &&& 1 = 1 then entry else 0) ^^^ combine rest (b >>> 1)

theorem and_one_eq_one_iff_testBit (b : UInt8) : b &&& 1 = 1 ↔ b.toNat.testBit 0 = true := by
  rw [← UInt8.toNat_inj]
  simp [Nat.testBit_zero]

def basis (t : TableSet) (constant : UInt32) (lane : Nat) : Outcome (List UInt32) :=
  (List.range 8).mapM fun bit => t.mul constant (1 <<< UInt32.ofNat (8 * lane + bit))

def lane (t : TableSet) (constant : UInt32) (place : Nat) : Outcome (ByteTable UInt32) := do
  let entries ← basis t constant place
  return Vector.ofFn fun b => combine entries (UInt8.ofNat b)

def ofConstant (t : TableSet) (constant : UInt32) : Outcome Multiplier :=
  match t.layout with
  | .gf8 _ products => .ok ⟨.w8, [(products.row constant.toUInt8).map UInt8.toUInt32]⟩
  | .gf16 _ => return ⟨.w16, ← (List.range 2).mapM (lane t constant)⟩
  | .gf32 _ => return ⟨.w32, ← (List.range 4).mapM (lane t constant)⟩

/-- Product of an element: the sum of the products of its bytes. -/
def onElement : List (ByteTable UInt32) → UInt32 → UInt32
  | [], _ => 0
  | lane :: rest, e => lane.lookup e.toUInt8 ^^^ onElement rest (e >>> 8)

/-- Products of the lowest `n` elements of a word, each at the place of its
element. -/
def onElements (m : Multiplier) : Nat → UInt64 → UInt64
  | 0, _ => 0
  | n + 1, word =>
    (onElement m.lanes word.toUInt32).toUInt64 |||
      (m.onElements n (word >>> UInt64.ofNat m.width.bits) <<< UInt64.ofNat m.width.bits)

def onWord (m : Multiplier) (word : UInt64) : UInt64 :=
  m.onElements (wordBytes / m.width.elementBytes) word

/-- Products of the elements of a source, added to a destination of the same
length or put in its place. -/
def apply (m : Multiplier) (src dst : Bytes) (accumulate : Bool) : Bytes :=
  let f (s d : UInt64) : UInt64 := if accumulate then d ^^^ m.onWord s else m.onWord s
  Word.zipWords f (Word.zipPadded f) src dst

def applyInPlace (m : Multiplier) (bytes : Bytes) (accumulate : Bool) : Bytes :=
  Word.mapWords (fun word => if accumulate then word ^^^ m.onWord word else m.onWord word) bytes

end Multiplier

end ErasureField
