import Mathlib.Algebra.Polynomial.Coeff
import Mathlib.Algebra.Polynomial.Degree.Lemmas
import Mathlib.Algebra.Field.ZMod

/-!
Numbers as polynomials over GF(2): bit `i` of a number is the coefficient of
`X^i`. The polynomial of the lowest `n` bits does not see the bits above them, so
the lemmas below need no bound on the number. Sums are exclusive or, a shift is a
product with `X` less the bit that leaves the `n` lowest, and a number is its low
bits plus its high bits moved up.
-/

namespace ErasureField

open Polynomial

/-- The polynomial over GF(2) of the lowest `n` bits of a number. -/
noncomputable def bitPoly (n a : Nat) : (ZMod 2)[X] :=
  ∑ i ∈ Finset.range n, if a.testBit i then X ^ i else 0

theorem coeff_bitPoly (n a i : Nat) :
    (bitPoly n a).coeff i = if i < n ∧ a.testBit i = true then 1 else 0 := by
  have hterm (j : Nat) :
      (if a.testBit j then (X : (ZMod 2)[X]) ^ j else 0).coeff i =
        if i = j then (if a.testBit j then 1 else 0) else 0 := by
    by_cases hbit : a.testBit j = true <;> simp [hbit, coeff_X_pow]
  simp only [bitPoly, finsetSum_coeff, hterm, Finset.sum_ite_eq, Finset.mem_range, ite_and]

theorem bitPoly_congr {n a b : Nat} (h : ∀ i < n, a.testBit i = b.testBit i) :
    bitPoly n a = bitPoly n b := by
  refine Finset.sum_congr rfl ?_
  intro i hi
  rw [h i (Finset.mem_range.mp hi)]

@[simp]
theorem bitPoly_zero (n : Nat) : bitPoly n 0 = 0 := by
  simp [bitPoly]

theorem bitPoly_mod_two_pow {n k : Nat} (a : Nat) (h : n ≤ k) :
    bitPoly n (a % 2 ^ k) = bitPoly n a := by
  apply bitPoly_congr
  intro i hi
  have hik : i < k := by omega
  simp [Nat.testBit_mod_two_pow, hik]

theorem bitPoly_xor (n a b : Nat) : bitPoly n (a ^^^ b) = bitPoly n a + bitPoly n b := by
  simp only [bitPoly, ← Finset.sum_add_distrib, Nat.testBit_xor]
  refine Finset.sum_congr rfl ?_
  intro i _
  cases a.testBit i <;> cases b.testBit i <;> simp [CharTwo.add_self_eq_zero]

theorem bitPoly_succ (n a : Nat) :
    bitPoly (n + 1) a = bitPoly n a + if a.testBit n then X ^ n else 0 :=
  Finset.sum_range_succ _ n

/-- The low bits, and the others moved up to their place. -/
theorem bitPoly_add (n k a : Nat) :
    bitPoly (n + k) a = bitPoly n a + X ^ n * bitPoly k (a >>> n) := by
  simp only [bitPoly, Finset.sum_range_add, Finset.mul_sum, Nat.testBit_shiftRight, mul_ite,
    mul_zero, pow_add]

theorem bitPoly_bytes (n a : Nat) :
    bitPoly (8 * n) a = ∑ i ∈ Finset.range n, X ^ (8 * i) * bitPoly 8 (a >>> (8 * i)) := by
  induction n with
  | zero => simp [bitPoly]
  | succ n ih => rw [Nat.mul_succ, bitPoly_add, ih, Finset.sum_range_succ]

theorem bitPoly_succ_low (n a : Nat) :
    bitPoly (n + 1) a =
      (if a.testBit 0 then (1 : (ZMod 2)[X]) else 0) + X * bitPoly n (a >>> 1) := by
  rw [Nat.add_comm n 1, bitPoly_add]
  simp [bitPoly]

/-- A bit at a place below `n` is a power of `X`. -/
theorem bitPoly_two_pow {n k : Nat} (h : k < n) : bitPoly n (2 ^ k) = X ^ k := by
  ext i
  rw [coeff_bitPoly, coeff_X_pow, Nat.testBit_two_pow]
  have hcond : (i < n ∧ decide (k = i) = true) ↔ i = k := by
    simp only [decide_eq_true_eq]
    omega
  simp only [hcond]

theorem bitPoly_one {n : Nat} (h : 0 < n) : bitPoly n 1 = 1 := by
  simpa using bitPoly_two_pow h

/-- Bits that a number does not have may be counted in. -/
theorem bitPoly_of_lt {n k a : Nat} (ha : a < 2 ^ k) (h : k ≤ n) : bitPoly n a = bitPoly k a := by
  obtain ⟨d, rfl⟩ := Nat.exists_eq_add_of_le h
  have hhigh : a >>> k = 0 := by
    rw [Nat.shiftRight_eq_div_pow, Nat.div_eq_of_lt ha]
  rw [bitPoly_add, hhigh, bitPoly_zero, mul_zero, add_zero]

/-- A product with `X` is a shift, with the bit that the shift moves to place `n`
counted apart. -/
theorem X_mul_bitPoly (n a : Nat) :
    X * bitPoly n a = bitPoly n (a <<< 1) + if (a <<< 1).testBit n then X ^ n else 0 := by
  have hlow := bitPoly_succ_low n (a <<< 1)
  have hback : (a <<< 1) >>> 1 = a := by
    simp [Nat.shiftLeft_eq, Nat.shiftRight_eq_div_pow]
  have heven : (a <<< 1).testBit 0 = false := by
    simp
  rw [hback, heven, bitPoly_succ] at hlow
  simpa using hlow.symm

theorem degree_bitPoly_lt (n a : Nat) : (bitPoly n a).degree < n := by
  rw [degree_lt_iff_coeff_zero]
  intro i hi
  rw [coeff_bitPoly, if_neg (by omega)]

/-- A polynomial determines the bits it was made from. -/
theorem bitPoly_inj {n a b : Nat} (ha : a < 2 ^ n) (hb : b < 2 ^ n)
    (h : bitPoly n a = bitPoly n b) : a = b := by
  apply Nat.eq_of_testBit_eq
  intro i
  by_cases hi : i < n
  · have hcoeff := congrArg (fun p : (ZMod 2)[X] => p.coeff i) h
    simp only [coeff_bitPoly, hi, true_and] at hcoeff
    cases hbit : a.testBit i <;> cases hbit' : b.testBit i <;> simp_all
  · have hle : 2 ^ n ≤ 2 ^ i := Nat.pow_le_pow_right (by omega) (by omega)
    rw [Nat.testBit_lt_two_pow (lt_of_lt_of_le ha hle),
      Nat.testBit_lt_two_pow (lt_of_lt_of_le hb hle)]

end ErasureField
