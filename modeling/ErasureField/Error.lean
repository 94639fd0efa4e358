import ErasureField.Modulus
import ErasureField.Text.Quoted

/-!
What an operation refuses, and why. An error is the operation that refused and a
cause; the cause is a value, and its wording is in one place. Replacing the
operation of an error keeps its cause.
-/

namespace ErasureField

inductive RequiredLength where
  | exactly (bytes : Nat)
  | atLeast (bytes : Nat)
  | multipleOf (bytes : Nat)
  deriving DecidableEq

def RequiredLength.message : RequiredLength → String
  | .exactly n => "exactly " ++ toString n ++ " bytes"
  | .atLeast n => "at least " ++ toString n ++ " bytes"
  | .multipleOf n => "a multiple of " ++ toString n ++ " bytes"

inductive Misconfiguration where
  | unsupportedWidth (bits : Nat)
  | unreadableWidth (text : String)
  | wrongDegree (modulus : Modulus)
  | divisibleByX (modulus : Modulus)
  /-- The powers of `x` return to one after this many steps, which is too early. -/
  | shortCycle (modulus : Modulus) (steps : Nat)
  /-- The powers of `x` do not return to one when all elements have been passed. -/
  | openCycle (modulus : Modulus)
  /-- The order of `x` is not the number of nonzero elements. -/
  | notGenerating (modulus : Modulus)
  | differentFields (own other : Modulus)
  | stated (message : String)
  deriving DecidableEq

def Misconfiguration.message : Misconfiguration → String
  | .unsupportedWidth bits =>
    "unsupported field width " ++ toString bits ++ " (expected 8, 16 or 32)"
  | .unreadableWidth text => "cannot parse field width from " ++ Text.quoted text
  | .wrongDegree m =>
    Text.hex m.polynomial.toNat ++ " is not of degree " ++ toString m.width.bits ++
      " for " ++ m.width.name
  | .divisibleByX m => Text.hex m.polynomial.toNat ++ " is divisible by x"
  | .shortCycle m steps =>
    "powers of " ++ Text.hex generator.toNat ++ " cycle after " ++ toString steps ++
      " steps modulo " ++ Text.hex m.polynomial.toNat ++ "; " ++ m.width.name ++
      " requires " ++ toString m.width.order
  | .openCycle m =>
    Text.hex generator.toNat ++ "^" ++ toString m.width.order ++ " != 1 modulo " ++
      Text.hex m.polynomial.toNat
  | .notGenerating m =>
    "x does not generate " ++ m.width.name ++ " modulo " ++ Text.hex m.polynomial.toNat
  | .differentFields own other =>
    "buffers belong to different fields (" ++ own.describe ++ " vs " ++ other.describe ++ ")"
  | .stated message => message

inductive Cause where
  | configuration (why : Misconfiguration)
  | divisionByZero
  | invalidLength (required : RequiredLength) (actual : Nat)
  | invalidElement (value : Nat) (width : Width)
  deriving DecidableEq

def Cause.message : Cause → String
  | .configuration why => "invalid field configuration: " ++ why.message
  | .divisionByZero => "division by zero"
  | .invalidLength required actual =>
    "invalid length (expected " ++ required.message ++ ", got " ++ toString actual ++ ")"
  | .invalidElement value width =>
    "element " ++ Text.hex value ++ " does not fit in " ++ width.name

structure Error where
  operation : String
  cause : Cause
  deriving DecidableEq

namespace Error

def message (e : Error) : String := e.operation ++ ": " ++ e.cause.message

def withOperation (e : Error) (operation : String) : Error := { e with operation }

theorem withOperation_withOperation (e : Error) (first second : String) :
    (e.withOperation first).withOperation second = e.withOperation second := rfl

theorem withOperation_eq_self_iff (e : Error) (operation : String) :
    e.withOperation operation = e ↔ operation = e.operation := by
  cases e
  simp [withOperation]

end Error

end ErasureField
