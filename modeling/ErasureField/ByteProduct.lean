import ErasureField.Logarithm

/-!
All products of two bytes. A row holds the multiples of one byte; it is what a
region of bytes is multiplied by.
-/

namespace ErasureField

abbrev ByteTable (α : Type) := Vector α 256

def ByteTable.lookup {α : Type} (table : ByteTable α) (b : UInt8) : α :=
  table.get ⟨b.toNat, b.toNat_lt⟩

theorem ByteTable.lookup_ofFn {α : Type} (f : Fin 256 → α) (b : UInt8) :
    ByteTable.lookup (Vector.ofFn f) b = f ⟨b.toNat, b.toNat_lt⟩ :=
  Vector.getElem_ofFn _

theorem ByteTable.lookup_map {α β : Type} (f : α → β) (table : ByteTable α) (b : UInt8) :
    ByteTable.lookup (table.map f) b = f (table.lookup b) :=
  Vector.getElem_map f _

structure ByteProducts where
  rows : ByteTable (ByteTable UInt8)

namespace ByteProducts

def entryCount : Nat := byteValues * byteValues

def build (logs : Logarithms UInt8) : Outcome ByteProducts := do
  let rows ← Vector.ofFnM fun (a : Fin 256) => Vector.ofFnM fun (b : Fin 256) => do
    let product ← logs.mul (UInt32.ofNat a) (UInt32.ofNat b)
    return product.toUInt8
  return ⟨rows⟩

def row (t : ByteProducts) (a : UInt8) : ByteTable UInt8 := t.rows.lookup a

def mul (t : ByteProducts) (a b : UInt8) : UInt8 := (t.row a).lookup b

end ByteProducts

end ErasureField
