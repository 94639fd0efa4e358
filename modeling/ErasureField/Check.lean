import ErasureField.Outcome

/-!
The checks an operation makes before it does anything. Each names the operation
in whose name it refuses.
-/

namespace ErasureField.Check

def exactLength (operation : String) (actual expected : Nat) : Outcome Unit :=
  if actual = expected then .ok ()
  else .refuse operation (.invalidLength (.exactly expected) actual)

def minLength (operation : String) (actual least : Nat) : Outcome Unit :=
  if least ≤ actual then .ok ()
  else .refuse operation (.invalidLength (.atLeast least) actual)

/-- A length must be a whole number of units. A unit of zero bytes measures
nothing, which is the caller's fault. -/
def multipleOf (operation : String) (actual unit : Nat) : Outcome Unit :=
  if unit = 0 then .fault .zeroUnit
  else if actual % unit = 0 then .ok ()
  else .refuse operation (.invalidLength (.multipleOf unit) actual)

def element (operation : String) (value : UInt32) (width : Width) : Outcome Unit :=
  if width.contains value.toNat then .ok ()
  else .refuse operation (.invalidElement value.toNat width)

def nonzero (operation : String) (value : UInt32) : Outcome Unit :=
  if value = 0 then .refuse operation .divisionByZero else .ok ()

variable {operation : String} {value : UInt32} {w : Width} {actual bound : Nat}

theorem exactLength_ok (h : actual = bound) : exactLength operation actual bound = .ok () :=
  if_pos h

theorem exactLength_refused (h : actual ≠ bound) : exactLength operation actual bound =
    .refuse operation (.invalidLength (.exactly bound) actual) :=
  if_neg h

theorem minLength_ok (h : bound ≤ actual) : minLength operation actual bound = .ok () :=
  if_pos h

theorem minLength_refused (h : actual < bound) : minLength operation actual bound =
    .refuse operation (.invalidLength (.atLeast bound) actual) :=
  if_neg (Nat.not_le_of_lt h)

theorem multipleOf_ok (hunit : bound ≠ 0) (h : actual % bound = 0) :
    multipleOf operation actual bound = .ok () := by
  rw [multipleOf, if_neg hunit, if_pos h]

theorem multipleOf_refused (hunit : bound ≠ 0) (h : actual % bound ≠ 0) :
    multipleOf operation actual bound =
      .refuse operation (.invalidLength (.multipleOf bound) actual) := by
  rw [multipleOf, if_neg hunit, if_neg h]

theorem element_ok (h : value.toNat ≤ w.order) : element operation value w = .ok () :=
  if_pos ((w.contains_iff _).mpr h)

theorem element_refused (h : w.order < value.toNat) : element operation value w =
    .refuse operation (.invalidElement value.toNat w) :=
  if_neg fun hcontains => Nat.not_le_of_lt h ((w.contains_iff _).mp hcontains)

theorem nonzero_ok (h : value ≠ 0) : nonzero operation value = .ok () :=
  if_neg h

end ErasureField.Check
