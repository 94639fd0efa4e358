import ErasureField.Check
import ErasureField.Word

/-!
Sums of regions. A region is the first bytes of a buffer, as many as a length
says. Addition is the same in every binary field, so it goes by words, and byte by
byte at the end, and needs no tables. A region that a buffer is too short for is
refused before anything is written.
-/

namespace ErasureField.Region

def sumBytes (a b : Bytes) : Bytes :=
  Word.zipWords (· ^^^ ·) (List.zipWith (· ^^^ ·)) a b

/-- The sum of the first bytes of two buffers, as many as the destination has. A
source that is shorter is the caller's fault. -/
def sumInto (a b dst : Bytes) : Outcome Bytes :=
  let n := dst.length
  if n ≤ a.length ∧ n ≤ b.length then .ok (sumBytes (a.take n) (b.take n))
  else .fault .sliceTooShort

def addInto (dst src : Bytes) : Outcome Bytes :=
  let n := dst.length
  if n ≤ src.length then .ok (sumBytes dst (src.take n)) else .fault .sliceTooShort

/-- Changes the first `len` bytes of the destination and leaves the others. -/
def onPrefix (len : Nat) (f : Bytes → Outcome Bytes) : Step Bytes Unit := do
  let dst ← get
  let changed ← f (dst.take len)
  set (changed ++ dst.drop len)

def sum (a b : Bytes) (len : Nat) : Step Bytes Unit := do
  Check.minLength "region_xor: a" a.length len
  Check.minLength "region_xor: b" b.length len
  Check.minLength "region_xor: dst" (← get).length len
  onPrefix len fun dst => sumInto (a.take len) (b.take len) dst

def add (src : Bytes) (len : Nat) : Step Bytes Unit := do
  Check.minLength "region_xor_in_place: dst" (← get).length len
  Check.minLength "region_xor_in_place: src" src.length len
  onPrefix len fun dst => addInto dst (src.take len)

end ErasureField.Region
