import ErasureField.Modulus

/-!
The choice of a field: a width and, if the default will not do, a polynomial. The
choice says nothing about whether the polynomial is admitted.
-/

namespace ErasureField

structure FieldChoice where
  width : Width
  polynomial : Option UInt64
  deriving DecidableEq

namespace FieldChoice

def ofWidth (w : Width) : FieldChoice := ⟨w, none⟩

def withPolynomial (choice : FieldChoice) (polynomial : UInt64) : FieldChoice :=
  { choice with polynomial := some polynomial }

/-- The polynomial that the choice comes to. -/
def polynomialOrDefault (choice : FieldChoice) : UInt64 :=
  choice.polynomial.getD choice.width.defaultPolynomial

def modulus (choice : FieldChoice) : Modulus := ⟨choice.width, choice.polynomialOrDefault⟩

def describe (choice : FieldChoice) : String :=
  let polynomial :=
    match choice.polynomial with
    | some p => "Some(" ++ toString p.toNat ++ ")"
    | none => "None"
  "FieldConfig \x7b width: " ++ choice.width.label ++ ", polynomial: " ++ polynomial ++ " \x7d"

theorem polynomialOrDefault_withPolynomial (choice : FieldChoice) (p : UInt64) :
    (choice.withPolynomial p).polynomialOrDefault = p := rfl

end FieldChoice

end ErasureField
