import ErasureField.Outcome

/-!
Logarithms to the base `x`. The powers of `x` are walked once around the nonzero
elements; each is entered under its exponent, and its exponent under it. A product
is then a sum of exponents. The table of powers holds the walk twice, so that a
sum of two logarithms needs no remainder. The entry of zero is the order, which is
the logarithm of nothing.

Entries are stored in words of the width that the caller asks for; storing a number
keeps its low bits.

The walk takes any polynomial. It is refused when the powers return to one too
early or not at all, and it breaks off when a power is not an element.
-/

namespace ErasureField

class StoredWord (T : Type) where
  values : Nat
  store : UInt32 → T
  load : T → UInt32
  toNat_load_store (v : UInt32) : (load (store v)).toNat = v.toNat % values

instance : StoredWord UInt8 where
  values := 256
  store := UInt32.toUInt8
  load := UInt8.toUInt32
  toNat_load_store v := by simp

instance : StoredWord UInt16 where
  values := 65536
  store := UInt32.toUInt16
  load := UInt16.toUInt32
  toNat_load_store v := by simp

structure Logarithms (T : Type) where
  order : Nat
  log : Array T
  antilog : Array T

structure PowerWalk (T : Type) where
  power : UInt64
  log : Array T
  antilog : Array T

namespace PowerWalk

variable {T : Type} [StoredWord T]

@[specialize]
def start (order : Nat) : PowerWalk T where
  power := 1
  log := Array.replicate (order + 1) (StoredWord.store (UInt32.ofNat order))
  antilog := Array.mkEmpty (2 * order)

/-- Enters the power with exponent `i` and goes on to the next one. -/
@[specialize]
def step (m : Modulus) (walk : PowerWalk T) (i : Nat) : Outcome (PowerWalk T) :=
  if 0 < i ∧ walk.power = 1 then
    .misconfigured "log table construction" (.shortCycle m i)
  else if walk.power.toNat < walk.log.size then
    .ok {
      power := m.timesX walk.power
      log := walk.log.setIfInBounds walk.power.toNat (StoredWord.store (UInt32.ofNat i))
      antilog := walk.antilog.push (StoredWord.store walk.power.toUInt32) }
  else .fault .indexPastTable

end PowerWalk

namespace Logarithms

variable {T : Type} [StoredWord T]

/-- Builds the tables by a walk of as many steps as there are nonzero elements,
at the end of which the power must be one again. -/
@[specialize]
def build (T : Type) [StoredWord T] (m : Modulus) : Outcome (Logarithms T) := do
  let order := m.width.order
  let walk ← (List.range order).foldlM (PowerWalk.step m) (PowerWalk.start order : PowerWalk T)
  if walk.power = 1 then
    .ok { order := order, log := walk.log, antilog := walk.antilog ++ walk.antilog }
  else .misconfigured "log table construction" (.openCycle m)

def logOf (t : Logarithms T) (a : UInt32) : Outcome Nat := do
  let entry ← Outcome.entry t.log a.toNat
  return (StoredWord.load entry).toNat

/-- The power of `x` with this exponent, which must be below twice the order. -/
def powerOf (t : Logarithms T) (i : Nat) : Outcome UInt32 := do
  let entry ← Outcome.entry t.antilog i
  return StoredWord.load entry

def mul (t : Logarithms T) (a b : UInt32) : Outcome UInt32 :=
  if a = 0 ∨ b = 0 then .ok 0
  else do t.powerOf ((← t.logOf a) + (← t.logOf b))

/-- Quotient by a nonzero element: the power at the difference of the logarithms,
raised by the order so that it is never negative. -/
def div (t : Logarithms T) (a b : UInt32) : Outcome UInt32 :=
  if a = 0 then .ok 0
  else do t.powerOf ((← t.logOf a) + t.order - (← t.logOf b))

def inv (t : Logarithms T) (a : UInt32) : Outcome UInt32 :=
  do t.powerOf (t.order - (← t.logOf a))

/-- Power: the logarithm times the exponent, both modulo the order. The power with
exponent zero is one, also that of zero. -/
def pow (t : Logarithms T) (a : UInt32) (e : Nat) : Outcome UInt32 :=
  if e = 0 then .ok 1
  else if a = 0 then .ok 0
  else do t.powerOf (((← t.logOf a) * (e % t.order)) % t.order)

end Logarithms

end ErasureField
