import ErasureField.BinaryField
import ErasureField.Region.Multiplier
import ErasureField.Region.Sum

/-!
Multiples of regions by a constant. The constant, then the length, then the
buffers are checked, the same for every constant; the constants zero and one then
need no tables. The form on one buffer is apart from the form from a source to a
destination and has its own short cuts.
-/

namespace ErasureField

namespace Region

def checkMultiple (operation : String) (width : Width) (constant : UInt32) (len : Nat) :
    Outcome Unit := do
  Check.element operation constant width
  Check.multipleOf operation len width.elementBytes

def zeros (bytes : Bytes) : Bytes := List.replicate bytes.length 0

/-- The new contents of a destination region: the multiples of a source region of
its length, or their sum with the old contents. -/
def multiple (t : TableSet) (constant : UInt32) (accumulate : Bool) (src dst : Bytes) :
    Outcome Bytes :=
  if constant = 0 then .ok (if accumulate then dst else zeros dst)
  else if constant = 1 then if accumulate then addInto dst src else .ok src
  else return (← Multiplier.ofConstant t constant).apply src dst accumulate

/-- The new contents of a region that is multiplied in place, or to which its
multiples are added. Adding the region itself to it leaves zeros. -/
def multipleInPlace (t : TableSet) (constant : UInt32) (accumulate : Bool) (bytes : Bytes) :
    Outcome Bytes :=
  if constant = 0 then .ok (if accumulate then bytes else zeros bytes)
  else if constant = 1 then .ok (if accumulate then zeros bytes else bytes)
  else return (← Multiplier.ofConstant t constant).applyInPlace bytes accumulate

def multiply (t : TableSet) (src : Bytes) (constant : UInt32) (len : Nat) (accumulate : Bool) :
    Step Bytes Unit := do
  checkMultiple "region_multiply" t.width constant len
  Check.minLength "region_multiply: src" src.length len
  Check.minLength "region_multiply: dst" (← get).length len
  onPrefix len fun dst => multiple t constant accumulate (src.take len) dst

def multiplyInPlace (t : TableSet) (constant : UInt32) (len : Nat) (accumulate : Bool) :
    Step Bytes Unit := do
  checkMultiple "region_multiply_in_place" t.width constant len
  Check.minLength "region_multiply_in_place: buf" (← get).length len
  onPrefix len fun bytes => multipleInPlace t constant accumulate bytes

end Region

namespace BinaryField

/-- Makes the first `len` bytes of the destination a multiple of those of a
source, or adds it to them. -/
def multiplyRegion (f : BinaryField) (src : Bytes) (constant : UInt32) (len : Nat)
    (accumulate : Bool) : Step Bytes Unit :=
  Region.multiply f.tables src constant len accumulate

def multiplyRegionInPlace (f : BinaryField) (constant : UInt32) (len : Nat) (accumulate : Bool) :
    Step Bytes Unit :=
  Region.multiplyInPlace f.tables constant len accumulate

end BinaryField

namespace Width

/-- The step on a destination that `BinaryField.multiplyRegion` takes in the
default field of a width. -/
def multiplyRegion (w : Width) (src : Bytes) (constant : UInt32) (len : Nat)
    (accumulate : Bool) : Step Registry (Step Bytes Unit) := do
  let f ← BinaryField.ofWidth w
  return f.multiplyRegion src constant len accumulate

def multiplyRegionInPlace (w : Width) (constant : UInt32) (len : Nat) (accumulate : Bool) :
    Step Registry (Step Bytes Unit) := do
  let f ← BinaryField.ofWidth w
  return f.multiplyRegionInPlace constant len accumulate

end Width

end ErasureField
