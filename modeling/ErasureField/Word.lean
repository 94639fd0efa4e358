import ErasureField.Outcome

/-!
Bytes and words. A buffer is a list of bytes, a word is eight of them, the lowest
first, and a buffer element is the two or four bytes that its width takes. Loads
and stores touch the first bytes of a buffer only. The strict forms need a whole
number of bytes there; the padded and cut forms take what there is, and so serve
the short end of a buffer.
-/

namespace ErasureField

abbrev Bytes := List UInt8

def wordBytes : Nat := 8

namespace Word

/-- The word whose bytes these are, the lowest first. -/
def ofBytes : Bytes → UInt64
  | [] => 0
  | b :: rest => b.toUInt64 ||| (ofBytes rest <<< 8)

/-- The lowest `n` bytes of a word, the lowest first. -/
def toBytes : Nat → UInt64 → Bytes
  | 0, _ => []
  | n + 1, word => word.toUInt8 :: toBytes n (word >>> 8)

@[simp]
theorem length_toBytes (n : Nat) (word : UInt64) : (toBytes n word).length = n := by
  induction n generalizing word with
  | zero => rfl
  | succ n ih => simp [toBytes, ih]

def load (n : Nat) (bytes : Bytes) : Outcome UInt64 :=
  if n ≤ bytes.length then .ok (ofBytes (bytes.take n)) else .fault .sliceTooShort

/-- Overwrites the first `n` bytes of a buffer by a number. -/
def store (n : Nat) (bytes : Bytes) (word : UInt64) : Outcome Bytes :=
  if n ≤ bytes.length then .ok (toBytes n word ++ bytes.drop n) else .fault .sliceTooShort

/-- The word in the first bytes of a buffer, with zeros for bytes it does not have. -/
def loadPadded (bytes : Bytes) : UInt64 := ofBytes (bytes.take wordBytes)

/-- Overwrites the first bytes of a buffer by as much of a word as it has room for. -/
def storeCut (bytes : Bytes) (word : UInt64) : Bytes :=
  toBytes (min wordBytes bytes.length) word ++ bytes.drop wordBytes

/-- The element at an index of a byte string, its lowest byte first. -/
def elementAt (w : Width) (bytes : Bytes) (index : Nat) : UInt32 :=
  (ofBytes ((bytes.drop (index * w.elementBytes)).take w.elementBytes)).toUInt32

def isWhole (bytes : Bytes) : Bool := (bytes.take wordBytes).length == wordBytes

theorem isWhole_iff (bytes : Bytes) : isWhole bytes = true ↔ wordBytes ≤ bytes.length := by
  simp only [isWhole, beq_iff_eq, List.length_take]
  omega

theorem store_ok {n : Nat} {bytes : Bytes} (h : n ≤ bytes.length) (word : UInt64) :
    store n bytes word = .ok (toBytes n word ++ bytes.drop n) :=
  if_pos h

@[simp]
theorem length_storeCut (bytes : Bytes) (word : UInt64) :
    (storeCut bytes word).length = bytes.length := by
  simp only [storeCut, List.length_append, length_toBytes, List.length_drop]
  omega

theorem storeCut_of_le {bytes : Bytes} (h : wordBytes ≤ bytes.length) (word : UInt64) :
    storeCut bytes word = toBytes wordBytes word ++ bytes.drop wordBytes := by
  rw [storeCut, Nat.min_eq_left h]

theorem storeCut_of_lt {bytes : Bytes} (h : bytes.length < wordBytes) (word : UInt64) :
    storeCut bytes word = toBytes bytes.length word := by
  have hle := Nat.le_of_lt h
  rw [storeCut, Nat.min_eq_right hle, List.drop_eq_nil_of_le hle, List.append_nil]

/-- Maps a buffer word by word. The short end is padded with zeros, mapped as a word
and cut again. -/
def mapWords (f : UInt64 → UInt64) (bytes : Bytes) : Bytes :=
  if isWhole bytes then
    toBytes wordBytes (f (ofBytes (bytes.take wordBytes))) ++ mapWords f (bytes.drop wordBytes)
  else storeCut bytes (f (loadPadded bytes))
termination_by bytes.length
decreasing_by
  rename_i h
  have := (isWhole_iff bytes).1 h
  simp only [wordBytes, List.length_drop] at this ⊢
  omega

/-- Combines two buffers word by word, and their short ends by `tail`. -/
def zipWords (f : UInt64 → UInt64 → UInt64) (tail : Bytes → Bytes → Bytes)
    (a b : Bytes) : Bytes :=
  if isWhole a ∧ isWhole b then
    toBytes wordBytes (f (ofBytes (a.take wordBytes)) (ofBytes (b.take wordBytes))) ++
      zipWords f tail (a.drop wordBytes) (b.drop wordBytes)
  else tail a b
termination_by a.length
decreasing_by
  rename_i h
  have := (isWhole_iff a).1 h.1
  simp only [wordBytes, List.length_drop] at this ⊢
  omega

def zipPadded (f : UInt64 → UInt64 → UInt64) (a b : Bytes) : Bytes :=
  storeCut b (f (loadPadded a) (loadPadded b))

end Word

end ErasureField
