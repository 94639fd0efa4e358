import ErasureField.Proofs.PartialProduct

/-!
The multiplication that partial products give when nothing has been asked of the
polynomial. It is the product of polynomials modulo the leading term of the width and the
32 low bits of the polynomial, so these bits and no others decide it: they can be read off
the product of the highest power of `x` and `x`. The residues need be no field for
products to commute, to associate and to distribute over sums, and square and multiply
gives the same as multiplying one time after the other.
-/

namespace ErasureField

open Polynomial

namespace PartialProducts

variable {p : UInt64} {a b : UInt32}

/-- Whatever the polynomial, elements of 32 bits are told apart by their residues. -/
theorem eq_of_residue_eq (h : (wideModulus p).residue a.toNat = (wideModulus p).residue b.toNat) :
    a = b := by
  have hb : (wideModulus p).Represents b.toNat ((wideModulus p).residue a.toNat) :=
    ⟨(represents_word p b).lt, h.symm⟩
  exact UInt32.toNat_inj.mp ((represents_word p a).unique hb)

theorem reducer_wideModulus (p : UInt64) :
    (wideModulus p).reducer = X ^ 32 + bitPoly 32 (p.toNat % 2 ^ 32) := by
  rw [bitPoly_mod_two_pow p.toNat (le_refl 32)]
  rfl

/-- A product is the remainder of the product of the polynomials of its factors. -/
theorem bitPoly_mul (p : UInt64) (a b : UInt32) :
    bitPoly 32 ((build p).mul a b).toNat =
      bitPoly 32 a.toNat * bitPoly 32 b.toNat %ₘ (wideModulus p).reducer := by
  have hresidue : (wideModulus p).residue ((build p).mul a b).toNat =
      AdjoinRoot.mk (wideModulus p).reducer (bitPoly 32 a.toNat * bitPoly 32 b.toNat) := by
    rw [residue_mul, map_mul]
    rfl
  exact (wideModulus p).bitPoly_eq_modByMonic hresidue

/-- Products by shifts may have bits above the width; cut to 32 bits they are the sums of
partial products. -/
theorem toUInt32_mul (p : UInt64) (a b : UInt32) :
    ((wideModulus p).mul a.toUInt64 b.toUInt64).toUInt32 = (build p).mul a b := by
  apply eq_of_residue_eq (p := p)
  have hfactor : b.toUInt64.toNat < 2 ^ (wideModulus p).width.bits := b.toNat_lt
  rw [residue_toUInt32, Modulus.residue_mul _ _ hfactor, residue_mul, UInt32.toNat_toUInt64,
    UInt32.toNat_toUInt64]

/-- The product of the highest power of `x` and `x` is what the leading term is replaced
by. -/
theorem mul_highest (p : UInt64) : (build p).mul 0x80000000 2 = p.toUInt32 := by
  apply eq_of_residue_eq (p := p)
  have hvalue : (0x80000000 : UInt32).toNat = 2 ^ 31 := rfl
  have hhighest : (wideModulus p).residue (0x80000000 : UInt32).toNat = (wideModulus p).x ^ 31 := by
    rw [hvalue]
    exact (wideModulus p).residue_two_pow (show 31 < 32 by omega)
  have htwo : (wideModulus p).residue (2 : UInt32).toNat = (wideModulus p).x :=
    (wideModulus p).residue_two
  calc
    _ = (wideModulus p).x ^ 31 * (wideModulus p).x := by rw [residue_mul, hhighest, htwo]
    _ = AdjoinRoot.mk (wideModulus p).reducer (X ^ 32) := by
      rw [← pow_succ, map_pow, AdjoinRoot.mk_X]
      rfl
    _ = (wideModulus p).residue p.toNat := (wideModulus p).mk_X_pow_bits
    _ = (wideModulus p).residue p.toUInt32.toNat := (residue_toUInt32 p p).symm

/-- Two polynomials multiply alike if and only if they have the same 32 low bits. -/
theorem mul_eq_mul_iff (p q : UInt64) :
    (∀ a b, (build p).mul a b = (build q).mul a b) ↔ p.toNat % 2 ^ 32 = q.toNat % 2 ^ 32 := by
  constructor
  · intro h
    have hhighest := h 0x80000000 2
    rw [mul_highest, mul_highest, ← UInt32.toNat_inj] at hhighest
    simpa only [UInt64.toNat_toUInt32] using hhighest
  · intro h a b
    have hreducer : (wideModulus p).reducer = (wideModulus q).reducer := by
      rw [reducer_wideModulus, reducer_wideModulus, h]
    have hproduct := bitPoly_mul p a b
    rw [hreducer, ← bitPoly_mul q a b] at hproduct
    exact UInt32.toNat_inj.mp (bitPoly_inj (UInt32.toNat_lt _) (UInt32.toNat_lt _) hproduct)

theorem build_mul_comm (p : UInt64) (a b : UInt32) : (build p).mul a b = (build p).mul b a := by
  apply eq_of_residue_eq (p := p)
  rw [residue_mul, residue_mul, mul_comm]

theorem build_mul_assoc (p : UInt64) (a b c : UInt32) :
    (build p).mul a ((build p).mul b c) = (build p).mul ((build p).mul a b) c := by
  apply eq_of_residue_eq (p := p)
  simp only [residue_mul, mul_assoc]

theorem build_mul_xor (p : UInt64) (a b c : UInt32) :
    (build p).mul a (b ^^^ c) = (build p).mul a b ^^^ (build p).mul a c := by
  apply eq_of_residue_eq (p := p)
  simp only [residue_mul, UInt32.toNat_xor, Modulus.residue_xor, mul_add]

/-- Multiplying by one factor after the other. -/
theorem residue_foldl_mul (p : UInt64) (factors : List UInt32) (a : UInt32) :
    (wideModulus p).residue (factors.foldl (build p).mul a).toNat =
      (wideModulus p).residue a.toNat *
        (factors.map fun b => (wideModulus p).residue b.toNat).prod := by
  induction factors generalizing a with
  | nil => simp
  | cons b rest ih =>
    rw [List.foldl_cons, ih, residue_mul, List.map_cons, List.prod_cons, mul_assoc]

/-- Square and multiply gives the product of as many factors as the exponent says. -/
theorem pow_eq_foldl_mul (p : UInt64) (a : UInt32) (e : Nat) :
    (build p).pow a e = (List.replicate e a).foldl (build p).mul 1 := by
  apply eq_of_residue_eq (p := p)
  have hone : (wideModulus p).residue (1 : UInt32).toNat = 1 := (wideModulus p).residue_one
  rw [(represents_pow (represents_word p a) e).residue_eq, residue_foldl_mul, hone, one_mul,
    List.map_replicate, List.prod_replicate]

/-- What partial products of any polynomial, of whatever degree and form, multiply to: the
remainder of the product of the polynomials of both factors modulo the leading term and the
32 low bits, which is also what is left of the product by shifts when it is cut to 32 bits.
Two polynomials multiply alike if and only if they agree in these bits. Products commute,
associate and distribute over sums, and a power is the product of as many factors as its
exponent says. -/
theorem multiplication_of_any_polynomial (p : UInt64) :
    (∀ a b : UInt32,
      bitPoly 32 ((build p).mul a b).toNat =
        bitPoly 32 a.toNat * bitPoly 32 b.toNat %ₘ (X ^ 32 + bitPoly 32 (p.toNat % 2 ^ 32)) ∧
      ((wideModulus p).mul a.toUInt64 b.toUInt64).toUInt32 = (build p).mul a b) ∧
    (∀ q : UInt64, (∀ a b, (build p).mul a b = (build q).mul a b) ↔
      p.toNat % 2 ^ 32 = q.toNat % 2 ^ 32) ∧
    (∀ a b, (build p).mul a b = (build p).mul b a) ∧
    (∀ a b c, (build p).mul a ((build p).mul b c) = (build p).mul ((build p).mul a b) c) ∧
    (∀ a b c, (build p).mul a (b ^^^ c) = (build p).mul a b ^^^ (build p).mul a c) ∧
    (∀ (a : UInt32) (e : Nat),
      (build p).pow a e = (List.replicate e a).foldl (build p).mul 1) ∧
    ∀ a, (build p).pow a 0 = 1 := by
  refine ⟨?_, mul_eq_mul_iff p, build_mul_comm p, build_mul_assoc p, build_mul_xor p,
    pow_eq_foldl_mul p, fun a => pow_eq_foldl_mul p a 0⟩
  intro a b
  rw [← reducer_wideModulus]
  exact ⟨bitPoly_mul p a b, toUInt32_mul p a b⟩

end PartialProducts

end ErasureField
