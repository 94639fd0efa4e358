import ErasureField.Region.Multiple

/-!
Buffers of elements. A buffer is bytes together with the field that its elements
belong to, and its bytes are a whole number of elements. Operations between two
buffers ask first that they are over one field and then that they are of one
length. Every refusal names the operation on buffers, whichever part of it
refused, and leaves the buffer as it was.
-/

namespace ErasureField

/-- Number of byte positions that can be addressed, `2^64`. -/
def addressLimit : Nat := 0x10000000000000000

structure ElementBuffer where
  field : BinaryField
  bytes : Bytes

namespace ElementBuffer

def ofBytes (field : BinaryField) (bytes : Bytes) : Outcome ElementBuffer := do
  Check.multipleOf "GaloisBuffer::new" bytes.length field.width.elementBytes
  return ⟨field, bytes⟩

def size (b : ElementBuffer) : Nat := b.bytes.length / b.field.width.elementBytes

def isEmpty (b : ElementBuffer) : Bool := b.bytes.isEmpty

def describe (b : ElementBuffer) : String :=
  "GaloisBuffer \x7b field: " ++ b.field.describe ++ ", elements: " ++ toString b.size ++ " \x7d"

def start (b : ElementBuffer) (index : Nat) : Nat := index * b.field.width.elementBytes

/-- The byte position after the element at an index, if it can be addressed. -/
def stop? (b : ElementBuffer) (index : Nat) : Option Nat :=
  let stop := b.start index + b.field.width.elementBytes
  if stop < addressLimit then some stop else none

def get? (b : ElementBuffer) (index : Nat) : Option UInt32 :=
  match b.stop? index with
  | some stop =>
    if stop ≤ b.bytes.length then some (Word.elementAt b.field.width b.bytes index) else none
  | none => none

def elements (b : ElementBuffer) : List UInt32 := (List.range b.size).filterMap b.get?

/-- Overwrites the element at an index. An index past the end is refused for the
bytes it would take, or for all that can be addressed where these are more. -/
def set (index : Nat) (value : UInt32) : Step ElementBuffer Unit := do
  let b ← get
  Check.element "GaloisBuffer::set" value b.field.width
  match b.stop? index with
  | some stop =>
    Check.minLength "GaloisBuffer::set" b.bytes.length stop
    let written ←
      Word.store b.field.width.elementBytes (b.bytes.drop (b.start index)) value.toUInt64
    modify fun b => { b with bytes := b.bytes.take (b.start index) ++ written }
  | none =>
    Outcome.refuse "GaloisBuffer::set" (.invalidLength (.atLeast (addressLimit - 1)) b.bytes.length)

def onBytes (step : Step Bytes Unit) : Step ElementBuffer Unit :=
  step.zoom (·.bytes) fun b bytes => { b with bytes }

def checkPeer (b other : ElementBuffer) (operation : String) : Outcome Unit :=
  if b.field == other.field then
    Check.exactLength operation other.bytes.length b.bytes.length
  else
    .misconfigured operation
      (.differentFields b.field.tables.modulus other.field.tables.modulus)

def scale (constant : UInt32) : Step ElementBuffer Unit := do
  let b ← get
  (onBytes (b.field.multiplyRegionInPlace constant b.bytes.length false)).withOperation
    "GaloisBuffer::scale"

def add (other : ElementBuffer) : Step ElementBuffer Unit := do
  let b ← get
  b.checkPeer other "GaloisBuffer::add_assign"
  (onBytes (Region.add other.bytes b.bytes.length)).withOperation "GaloisBuffer::add_assign"

/-- Makes every element of the destination a multiple of that of a source, or
adds it. -/
def multiplyFrom (src : ElementBuffer) (constant : UInt32) (accumulate : Bool) :
    Step ElementBuffer Unit := do
  src.checkPeer (← get) "GaloisBuffer::multadd"
  (onBytes (src.field.multiplyRegion src.bytes constant src.bytes.length accumulate)).withOperation
    "GaloisBuffer::multadd"

end ElementBuffer

end ErasureField
