import ErasureField.PartialProduct
import ErasureField.Proofs.Generator

/-!
Products from partial products, for any polynomial. The first table holds the
products of bytes, which are too small to be reduced, and each later table is the one
before it moved up by a byte. Cutting an entry to 32 bits does not change its
residue, so every entry is right modulo the leading term plus the 32 low bits of the
polynomial, and the sixteen partial products of two elements add up to their product.
-/

namespace ErasureField

open Polynomial

abbrev wideModulus (polynomial : UInt64) : Modulus := ⟨.w32, polynomial⟩

namespace PartialProducts

variable {p : UInt64}

theorem represents_word (p : UInt64) (a : UInt32) :
    (wideModulus p).Represents a.toNat ((wideModulus p).residue a.toNat) :=
  (wideModulus p).represents_residue a.toNat_lt

theorem residue_toUInt32 (p a : UInt64) :
    (wideModulus p).residue a.toUInt32.toNat = (wideModulus p).residue a.toNat := by
  rw [UInt64.toNat_toUInt32]
  exact (wideModulus p).residue_mod_two_pow _ (le_refl 32)

/-- A word below `2^31` is multiplied by `x` without reduction. -/
theorem timesX_eq_shiftLeft (p : UInt64) {a : UInt64} (ha : a.toNat < 2 ^ 31) :
    (wideModulus p).timesX a = a <<< 1 := by
  have hdouble : a.toNat <<< 1 < 2 ^ 32 := by
    rw [Nat.shiftLeft_eq]
    omega
  have hbit : (a.toNat <<< 1).testBit (wideModulus p).width.bits = false :=
    Nat.testBit_lt_two_pow hdouble
  rw [← UInt64.toNat_inj, Modulus.toNat_timesX, hbit, UInt64.toNat_shiftLeft]
  simp

theorem shiftAdd_shiftLeft (p : UInt64) (n : Nat) {a : UInt64} (b : UInt64)
    (ha : a.toNat * 2 ^ n ≤ 2 ^ 31) :
    shiftAdd (· <<< 1) n a b = shiftAdd (wideModulus p).timesX n a b := by
  induction n generalizing a b with
  | zero => rfl
  | succ n ih =>
    have hsmall : a.toNat < 2 ^ 31 := by
      have hone : 1 ≤ 2 ^ n := Nat.one_le_two_pow
      rw [pow_succ] at ha
      nlinarith
    have hdouble : (a <<< 1).toNat = a.toNat * 2 := by
      simp [UInt64.toNat_shiftLeft, Nat.shiftLeft_eq]
      omega
    have hnext : (a <<< 1).toNat * 2 ^ n ≤ 2 ^ 31 := by
      rw [hdouble]
      rw [pow_succ] at ha
      linarith
    simp only [shiftAdd]
    rw [timesX_eq_shiftLeft p hsmall, ih (b >>> 1) hnext]

theorem residue_carrylessProduct (p : UInt64) (a b : UInt8) :
    (wideModulus p).residue (carrylessProduct a b).toNat =
      (wideModulus p).residue a.toNat * (wideModulus p).residue b.toNat := by
  have hsmall : a.toUInt64.toNat * 2 ^ 8 ≤ 2 ^ 31 := by
    have := a.toNat_lt
    rw [UInt8.toNat_toUInt64]
    omega
  have hbyte : bitPoly 32 b.toNat = bitPoly 8 b.toNat := bitPoly_of_lt b.toNat_lt (by omega)
  rw [carrylessProduct, residue_toUInt32, shiftAdd_shiftLeft p 8 _ hsmall,
    Modulus.residue_shiftAdd, UInt8.toNat_toUInt64, UInt8.toNat_toUInt64, ← hbyte]
  rfl

/-- A table holds the products of two bytes, moved up by `k` bytes. -/
def PairTable.Holds (p : UInt64) (k : Nat) (table : PairTable) : Prop :=
  ∀ a b : UInt8, (wideModulus p).residue (table.lookup a b).toNat =
    (wideModulus p).x ^ (8 * k) *
      ((wideModulus p).residue a.toNat * (wideModulus p).residue b.toNat)

theorem lookup_unreducedProducts (a b : UInt8) :
    unreducedProducts.lookup a b = carrylessProduct a b := by
  have hlow := b.toNat_lt
  have hfirst : UInt8.ofNat ((256 * a.toNat + b.toNat) / 256) = a := by
    rw [← UInt8.toNat_inj, UInt8.toNat_ofNat']
    have := a.toNat_lt
    omega
  have hsecond : UInt8.ofNat (256 * a.toNat + b.toNat) = b := by
    rw [← UInt8.toNat_inj, UInt8.toNat_ofNat']
    omega
  rw [unreducedProducts, PairTable.lookup_ofFn, hfirst, hsecond]

theorem holds_unreducedProducts (p : UInt64) : PairTable.Holds p 0 unreducedProducts := by
  intro a b
  rw [lookup_unreducedProducts, residue_carrylessProduct, Nat.mul_zero, pow_zero, one_mul]

theorem PairTable.Holds.moved {k : Nat} {table : PairTable} (h : PairTable.Holds p k table) :
    PairTable.Holds p (k + 1) (table.map (timesXEight (wideModulus p))) := by
  intro a b
  rw [PairTable.lookup_map, timesXEight, residue_toUInt32, Modulus.residue_timesXPow,
    UInt32.toNat_toUInt64, h a b, Nat.mul_succ, pow_add]
  ring

/-- Every table is the one before it moved up, so all seven are right. -/
theorem holds_build (p : UInt64) (k : Fin PartialProducts.tableCount) :
    PairTable.Holds p k ((build p).tables.get k) := by
  have h0 := holds_unreducedProducts p
  fin_cases k
  · exact h0
  · exact h0.moved
  · exact h0.moved.moved
  · exact h0.moved.moved.moved
  · exact h0.moved.moved.moved.moved
  · exact h0.moved.moved.moved.moved.moved
  · exact h0.moved.moved.moved.moved.moved.moved

theorem toNat_byteOf (a : UInt32) {i : Nat} (hi : i < 4) :
    (byteOf a i).toNat = (a.toNat >>> (8 * i)) % 2 ^ 8 := by
  have hword : 8 * i < 2 ^ 32 := by omega
  have hplace : (UInt32.ofNat (8 * i)).toNat % 32 = 8 * i := by
    rw [UInt32.toNat_ofNat_of_lt' hword]
    omega
  rw [byteOf, UInt32.toNat_toUInt8, UInt32.toNat_shiftRight, hplace]

/-- An element is the sum of its bytes, each moved up to its place. -/
theorem residue_eq_sum_bytes (p : UInt64) (a : UInt32) :
    (wideModulus p).residue a.toNat =
      ∑ i : Fin 4,
        (wideModulus p).x ^ (8 * i.val) * (wideModulus p).residue (byteOf a i).toNat := by
  have hbyte (i : Fin 4) :
      bitPoly 32 (byteOf a i).toNat = bitPoly 8 (a.toNat >>> (8 * i.val)) := by
    rw [bitPoly_of_lt (byteOf a i).toNat_lt (by omega), toNat_byteOf a i.isLt,
      bitPoly_mod_two_pow _ (le_refl 8)]
  have hsum : bitPoly 32 a.toNat =
      ∑ i : Fin 4, X ^ (8 * i.val) * bitPoly 32 (byteOf a i).toNat := by
    simp only [hbyte]
    rw [Fin.sum_univ_eq_sum_range (fun i => X ^ (8 * i) * bitPoly 8 (a.toNat >>> (8 * i))) 4]
    exact bitPoly_bytes 4 a.toNat
  calc
    (wideModulus p).residue a.toNat =
        AdjoinRoot.mk _ (∑ i : Fin 4, X ^ (8 * i.val) * bitPoly 32 (byteOf a i).toNat) := by
      rw [← hsum]
      rfl
    _ = _ := by
      simp only [map_sum, map_mul, map_pow, AdjoinRoot.mk_X]
      rfl

theorem residue_xorSum (p : UInt64) (elements : List UInt32) :
    (wideModulus p).residue (xorSum elements).toNat =
      (elements.map fun a => (wideModulus p).residue a.toNat).sum := by
  induction elements with
  | nil => exact (wideModulus p).residue_zero
  | cons a rest ih =>
    rw [List.map_cons, List.sum_cons, ← ih, ← Modulus.residue_xor, ← UInt32.toNat_xor]
    rfl

theorem residue_partialProduct (p : UInt64) (a b : UInt32) (i j : Fin 4) :
    (wideModulus p).residue ((build p).partialProduct a b i j).toNat =
      ((wideModulus p).x ^ (8 * i.val) * (wideModulus p).residue (byteOf a i).toNat) *
        ((wideModulus p).x ^ (8 * j.val) * (wideModulus p).residue (byteOf b j).toNat) := by
  rw [partialProduct, holds_build]
  rw [Nat.mul_add, pow_add]
  ring

/-- Partial products add up to the product, for every polynomial: each of the sixteen
is that of one byte of either factor, and those left out are zero. -/
theorem residue_mul (p : UInt64) (a b : UInt32) :
    (wideModulus p).residue ((build p).mul a b).toNat =
      (wideModulus p).residue a.toNat * (wideModulus p).residue b.toNat := by
  have hrow (i : Fin 4) :
      (wideModulus p).residue (if byteOf a i = 0 then 0
        else xorSum <| (List.finRange 4).map fun j => (build p).partialProduct a b i j).toNat =
      ((wideModulus p).x ^ (8 * i.val) * (wideModulus p).residue (byteOf a i).toNat) *
        (wideModulus p).residue b.toNat := by
    split
    · next hzero => simp [hzero]
    · rw [residue_xorSum, List.map_map, residue_eq_sum_bytes p b, Finset.mul_sum,
        Fin.sum_univ_def]
      simp only [Function.comp_def, residue_partialProduct]
  rw [mul]
  split
  · next hzero => rcases hzero with rfl | rfl <;> simp
  · rw [residue_xorSum, List.map_map, residue_eq_sum_bytes p a, Finset.sum_mul, Fin.sum_univ_def]
    simp only [Function.comp_def, hrow]

theorem represents_mul {p : UInt64} {a b : UInt32} {r s : (wideModulus p).Residue}
    (ha : (wideModulus p).Represents a.toNat r) (hb : (wideModulus p).Represents b.toNat s) :
    (wideModulus p).Represents ((build p).mul a b).toNat (r * s) := by
  rw [← ha.residue_eq, ← hb.residue_eq, ← residue_mul]
  exact represents_word p _

theorem represents_pow {p : UInt64} {base : UInt32} {r : (wideModulus p).Residue}
    (hbase : (wideModulus p).Represents base.toNat r) (e : Nat) :
    (wideModulus p).Represents ((build p).pow base e).toNat (r ^ e) := by
  let R (a : UInt32) (s : (wideModulus p).Residue) : Prop :=
    (wideModulus p).Represents a.toNat s
  have hmul (a b : UInt32) (s t : (wideModulus p).Residue) (ha : R a s) (hb : R b t) :
      R ((build p).mul a b) (s * t) := represents_mul ha hb
  have hone : R 1 1 := (wideModulus p).represents_one
  exact rel_raise hmul hone hbase e

/-- Of an admissible polynomial the power with exponent `2^32 - 2` is the inverse. -/
theorem represents_inv {p : UInt64} (h : (wideModulus p).Admissible) {a : UInt32}
    {r i : (wideModulus p).Residue} (ha : (wideModulus p).Represents a.toNat r)
    (hinverse : r * i = 1) : (wideModulus p).Represents ((build p).inv a).toNat i := by
  have hvalue : r ^ 0xFFFFFFFE = i := by
    have hround : r ^ 0xFFFFFFFE * r = 1 := by
      rw [← pow_succ]
      exact h.pow_order (Modulus.ne_zero_of_mul_eq_one hinverse)
    calc
      r ^ 0xFFFFFFFE = r ^ 0xFFFFFFFE * (r * i) := by rw [hinverse, mul_one]
      _ = (r ^ 0xFFFFFFFE * r) * i := by rw [mul_assoc]
      _ = i := by rw [hround, one_mul]
  rw [← hvalue]
  exact represents_pow ha 0xFFFFFFFE

end PartialProducts

end ErasureField
