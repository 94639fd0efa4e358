import ErasureField.Modulus
import ErasureField.Proofs.BitPolynomial
import Mathlib.RingTheory.AdjoinRoot

/-!
What the arithmetic of a modulus computes. Its elements stand for residues of
polynomials over GF(2) modulo the leading term of the width plus the low bits of
the polynomial. Multiplying by `x`, adding shifts and square and multiply are then
the operations of the residue ring, for any 64-bit polynomial. The bits of a word
above the width have no part in its residue; where a word has none of them, which
a polynomial of the right degree ensures, the residue determines the word.
-/

namespace ErasureField

open Polynomial

theorem Width.one_lt_bits (w : Width) : 1 < w.bits := by
  cases w <;> decide

theorem Width.bits_le (w : Width) : w.bits ≤ 32 := by
  cases w <;> decide

/-- An element and its leading term fit a word. -/
theorem Width.bits_lt (w : Width) : w.bits < 64 :=
  w.bits_le.trans_lt (by omega)

/-- A word is shifted by the whole width. -/
theorem Width.toNat_ofNat_bits (w : Width) : (UInt64.ofNat w.bits).toNat % 64 = w.bits := by
  cases w <;> rfl

theorem Width.lt_two_pow_iff (w : Width) {a : Nat} : a < 2 ^ w.bits ↔ a ≤ w.order := by
  rw [← Nat.one_shiftLeft, ← Width.order_add_one]
  omega

theorem and_one_eq_one_iff (a : UInt64) : a &&& 1 = 1 ↔ a.toNat.testBit 0 = true := by
  rw [← UInt64.toNat_inj]
  simp [Nat.testBit_zero]

theorem and_one_eq_zero_or_one (a : UInt64) : a &&& 1 = 0 ∨ a &&& 1 = 1 := by
  rw [← UInt64.toNat_inj, ← UInt64.toNat_inj, UInt64.toNat_and, UInt64.toNat_zero,
    UInt64.toNat_one, Nat.and_one_is_mod]
  exact Nat.mod_two_eq_zero_or_one _

namespace Modulus

noncomputable def poly (m : Modulus) : (ZMod 2)[X] := bitPoly 64 m.polynomial.toNat

/-- The polynomial that the arithmetic reduces by: the leading term of the width,
and the bits of the polynomial below it. -/
noncomputable def reducer (m : Modulus) : (ZMod 2)[X] :=
  X ^ m.width.bits + bitPoly m.width.bits m.polynomial.toNat

abbrev Residue (m : Modulus) : Type := AdjoinRoot m.reducer

noncomputable def x (m : Modulus) : m.Residue := AdjoinRoot.root m.reducer

/-- The residue of a number's bits below the width. -/
noncomputable def residue (m : Modulus) (a : Nat) : m.Residue :=
  AdjoinRoot.mk m.reducer (bitPoly m.width.bits a)

def HasDegree (m : Modulus) : Prop := m.polynomial >>> UInt64.ofNat m.width.bits = 1

theorem reducer_monic (m : Modulus) : m.reducer.Monic :=
  monic_X_pow_add (degree_bitPoly_lt _ _)

theorem degree_reducer (m : Modulus) : m.reducer.degree = m.width.bits := by
  have hlt : (bitPoly m.width.bits m.polynomial.toNat).degree <
      (X ^ m.width.bits : (ZMod 2)[X]).degree := by
    rw [degree_X_pow]
    exact degree_bitPoly_lt _ _
  rw [reducer, degree_add_eq_left_of_degree_lt hlt, degree_X_pow]

theorem natDegree_reducer (m : Modulus) : m.reducer.natDegree = m.width.bits :=
  natDegree_eq_of_degree_eq_some m.degree_reducer

@[simp]
theorem residue_zero (m : Modulus) : m.residue 0 = 0 := by
  simp [residue]

@[simp]
theorem residue_one (m : Modulus) : m.residue 1 = 1 := by
  rw [residue, bitPoly_one (by have := m.width.one_lt_bits; omega), map_one]

theorem residue_two_pow (m : Modulus) {k : Nat} (h : k < m.width.bits) :
    m.residue (2 ^ k) = m.x ^ k := by
  rw [residue, bitPoly_two_pow h, map_pow, AdjoinRoot.mk_X, x]

theorem residue_two (m : Modulus) : m.residue 2 = m.x := by
  simpa using m.residue_two_pow m.width.one_lt_bits

theorem residue_xor (m : Modulus) (a b : Nat) :
    m.residue (a ^^^ b) = m.residue a + m.residue b := by
  simp only [residue, bitPoly_xor, map_add]

theorem residue_mod_two_pow (m : Modulus) (a : Nat) {k : Nat} (h : m.width.bits ≤ k) :
    m.residue (a % 2 ^ k) = m.residue a := by
  rw [residue, bitPoly_mod_two_pow a h, residue]

/-- Numbers below `2^w` are told apart by their residues. -/
theorem residue_inj (m : Modulus) {a b : Nat} (ha : a < 2 ^ m.width.bits)
    (hb : b < 2 ^ m.width.bits) (h : m.residue a = m.residue b) : a = b := by
  have hdvd : m.reducer ∣ bitPoly m.width.bits a - bitPoly m.width.bits b :=
    AdjoinRoot.mk_eq_mk.mp h
  have hdegree : (bitPoly m.width.bits a - bitPoly m.width.bits b).degree < m.reducer.degree := by
    rw [degree_reducer]
    exact (degree_sub_le _ _).trans_lt (max_lt (degree_bitPoly_lt _ _) (degree_bitPoly_lt _ _))
  have hzero : bitPoly m.width.bits a - bitPoly m.width.bits b = 0 := by
    by_contra hne
    exact m.reducer_monic.not_dvd_of_degree_lt hne hdegree hdvd
  exact bitPoly_inj ha hb (sub_eq_zero.mp hzero)

/-- The bits of a number below the width are the remainder of every polynomial that has the
residue of the number. -/
theorem bitPoly_eq_modByMonic (m : Modulus) {a : Nat} {q : (ZMod 2)[X]}
    (h : m.residue a = AdjoinRoot.mk m.reducer q) :
    bitPoly m.width.bits a = q %ₘ m.reducer := by
  have hsmall : bitPoly m.width.bits a %ₘ m.reducer = bitPoly m.width.bits a := by
    rw [modByMonic_eq_self_iff m.reducer_monic, degree_reducer]
    exact degree_bitPoly_lt _ _
  rw [← hsmall]
  exact modByMonic_eq_of_dvd_sub m.reducer_monic (AdjoinRoot.mk_eq_mk.mp h)

structure Represents (m : Modulus) (a : Nat) (r : m.Residue) : Prop where
  lt : a < 2 ^ m.width.bits
  residue_eq : m.residue a = r

theorem represents_residue (m : Modulus) {a : Nat} (ha : a < 2 ^ m.width.bits) :
    m.Represents a (m.residue a) :=
  ⟨ha, rfl⟩

theorem represents_of_le_order (m : Modulus) {a : Nat} (ha : a ≤ m.width.order) :
    m.Represents a (m.residue a) :=
  m.represents_residue (m.width.lt_two_pow_iff.mpr ha)

/-- A residue has one element that stands for it. -/
theorem Represents.unique {m : Modulus} {a b : Nat} {r : m.Residue} (ha : m.Represents a r)
    (hb : m.Represents b r) : a = b :=
  m.residue_inj ha.lt hb.lt (ha.residue_eq.trans hb.residue_eq.symm)

theorem represents_zero (m : Modulus) : m.Represents 0 0 :=
  ⟨Nat.two_pow_pos _, m.residue_zero⟩

theorem represents_one (m : Modulus) : m.Represents 1 1 :=
  ⟨Nat.one_lt_two_pow (by have := m.width.one_lt_bits; omega), m.residue_one⟩

theorem represents_two (m : Modulus) : m.Represents 2 m.x := by
  rw [← m.residue_two]
  apply m.represents_residue
  exact lt_of_lt_of_le (by decide : 2 < 2 ^ 2)
    (Nat.pow_le_pow_right (by omega) m.width.one_lt_bits)

theorem Represents.xor {m : Modulus} {a b : Nat} {r s : m.Residue} (ha : m.Represents a r)
    (hb : m.Represents b s) : m.Represents (a ^^^ b) (r + s) :=
  ⟨Nat.xor_lt_two_pow ha.lt hb.lt, by rw [residue_xor, ha.residue_eq, hb.residue_eq]⟩

theorem Represents.add {m : Modulus} {a b : UInt32} {r s : m.Residue}
    (ha : m.Represents a.toNat r) (hb : m.Represents b.toNat s) :
    m.Represents (a ^^^ b).toNat (r + s) := by
  rw [UInt32.toNat_xor]
  exact ha.xor hb

theorem one_ne_zero_residue (m : Modulus) : (1 : m.Residue) ≠ 0 := by
  intro h
  have hone : m.Represents 1 0 := by
    rw [← h]
    exact m.represents_one
  have hcollapse : 1 = 0 := hone.unique m.represents_zero
  omega

theorem ne_zero_of_mul_eq_one {m : Modulus} {r i : m.Residue} (h : r * i = 1) : r ≠ 0 := by
  rintro rfl
  rw [zero_mul] at h
  exact m.one_ne_zero_residue h.symm

/-- In the residue ring every element is its own negative. -/
theorem add_self (m : Modulus) (r : m.Residue) : r + r = 0 := by
  have htwo : m.residue 1 + m.residue 1 = 0 := by
    rw [← residue_xor, Nat.xor_self, residue_zero]
  calc
    r + r = r * (m.residue 1 + m.residue 1) := by
      rw [residue_one]
      ring
    _ = 0 := by rw [htwo, mul_zero]

/-- In the residue ring the leading term is the sum of the low terms. -/
theorem mk_X_pow_bits (m : Modulus) :
    AdjoinRoot.mk m.reducer (X ^ m.width.bits) = m.residue m.polynomial.toNat := by
  have hzero : AdjoinRoot.mk m.reducer (X ^ m.width.bits) + m.residue m.polynomial.toNat = 0 := by
    rw [residue, ← map_add]
    exact AdjoinRoot.mk_self
  linear_combination hzero - m.add_self (m.residue m.polynomial.toNat)

/-- The bit that a shift moves to the place of the width decides whether the
polynomial is added. -/
theorem toNat_timesX (m : Modulus) (a : UInt64) :
    (m.timesX a).toNat =
      if (a.toNat <<< 1).testBit m.width.bits then
        (a.toNat <<< 1) % 2 ^ 64 ^^^ m.polynomial.toNat
      else (a.toNat <<< 1) % 2 ^ 64 := by
  have hbits := m.width.bits_lt
  have hshifted : (a <<< 1).toNat = (a.toNat <<< 1) % 2 ^ 64 := by
    simp [UInt64.toNat_shiftLeft]
  have hleaving : ((a <<< 1) >>> UInt64.ofNat m.width.bits) &&& 1 = 1 ↔
      (a.toNat <<< 1).testBit m.width.bits = true := by
    rw [and_one_eq_one_iff, UInt64.toNat_shiftRight, m.width.toNat_ofNat_bits,
      Nat.testBit_shiftRight, hshifted, Nat.testBit_mod_two_pow]
    simp [hbits]
  simp only [timesX, hleaving]
  split
  · rw [UInt64.toNat_xor, hshifted]
  · exact hshifted

/-- Multiplying by `x` is multiplying by the residue of `x`, whatever the
polynomial and the bits above the width. -/
theorem residue_timesX (m : Modulus) (a : UInt64) :
    m.residue (m.timesX a).toNat = m.x * m.residue a.toNat := by
  have hle := m.width.bits_lt.le
  have hshifted : m.residue ((a.toNat <<< 1) % 2 ^ 64) = m.residue (a.toNat <<< 1) :=
    m.residue_mod_two_pow _ hle
  have hproduct : m.x * m.residue a.toNat = m.residue (a.toNat <<< 1) +
      if (a.toNat <<< 1).testBit m.width.bits then m.residue m.polynomial.toNat else 0 := by
    rw [x, ← AdjoinRoot.mk_X, residue, ← map_mul, X_mul_bitPoly, map_add, ← mk_X_pow_bits,
      ← residue]
    split <;> simp
  rw [hproduct, toNat_timesX]
  split
  · rw [residue_xor, hshifted]
  · rw [hshifted, add_zero]

theorem residue_timesXPow (m : Modulus) (n : Nat) (a : UInt64) :
    m.residue (m.timesXPow n a).toNat = m.x ^ n * m.residue a.toNat := by
  induction n generalizing a with
  | zero => simp [timesXPow]
  | succ n ih =>
    rw [timesXPow, ih, residue_timesX, pow_succ, mul_assoc]

/-- Adding shifts is a product. The factor that is shifted may have any bits, and
of the other one as many are counted as are looked at. -/
theorem residue_shiftAdd (m : Modulus) (n : Nat) (a b : UInt64) :
    m.residue (shiftAdd m.timesX n a b).toNat =
      m.residue a.toNat * AdjoinRoot.mk m.reducer (bitPoly n b.toNat) := by
  induction n generalizing a b with
  | zero => simp [shiftAdd, bitPoly]
  | succ n ih =>
    have hhalf : (b >>> 1).toNat = b.toNat >>> 1 := by
      simp [UInt64.toNat_shiftRight]
    have hfirst : m.residue (if b &&& 1 = 1 then a else 0).toNat =
        if b.toNat.testBit 0 then m.residue a.toNat else 0 := by
      rw [apply_ite UInt64.toNat, apply_ite m.residue, UInt64.toNat_zero, residue_zero]
      simp only [and_one_eq_one_iff]
    rw [shiftAdd, UInt64.toNat_xor, residue_xor, ih, residue_timesX, hhalf, hfirst,
      bitPoly_succ_low, map_add, map_mul, AdjoinRoot.mk_X, ← x]
    split
    · rw [map_one]
      ring
    · rw [map_zero]
      ring

theorem residue_mul (m : Modulus) (a : UInt64) {b : UInt64} (hb : b.toNat < 2 ^ m.width.bits) :
    m.residue (m.mul a b).toNat = m.residue a.toNat * m.residue b.toNat := by
  have hle := m.width.bits_lt.le
  rw [mul, residue_shiftAdd, bitPoly_of_lt hb hle, residue, residue]

section Degree

variable {m : Modulus}

theorem hasDegree_iff : m.HasDegree ↔ m.polynomial.toNat >>> m.width.bits = 1 := by
  rw [HasDegree, ← UInt64.toNat_inj, UInt64.toNat_shiftRight, m.width.toNat_ofNat_bits]
  rfl

theorem HasDegree.testBit (h : m.HasDegree) {i : Nat} (hi : m.width.bits ≤ i) :
    m.polynomial.toNat.testBit i = decide (i = m.width.bits) := by
  obtain ⟨d, rfl⟩ := Nat.exists_eq_add_of_le hi
  rw [← Nat.testBit_shiftRight, hasDegree_iff.mp h, Bool.eq_iff_iff, decide_eq_true_eq,
    Nat.testBit_one_eq_true_iff_self_eq_zero]
  omega

/-- A polynomial of the right degree is the one that the arithmetic reduces by. -/
theorem HasDegree.poly_eq (h : m.HasDegree) : m.poly = m.reducer := by
  ext i
  have hsmall := m.width.bits_le
  rw [poly, reducer, coeff_bitPoly, coeff_add, coeff_X_pow, coeff_bitPoly]
  rcases Nat.lt_or_ge i m.width.bits with hi | hi
  · have hne : i ≠ m.width.bits := by omega
    have h64 : i < 64 := by omega
    simp [hne, hi, h64]
  · have hnot : ¬ i < m.width.bits := by omega
    rw [h.testBit hi]
    by_cases heq : i = m.width.bits
    · have h64 : m.width.bits < 64 := by omega
      subst heq
      simp [h64]
    · simp [heq, hnot]

theorem HasDegree.timesX_lt (h : m.HasDegree) {a : UInt64} (ha : a.toNat < 2 ^ m.width.bits) :
    (m.timesX a).toNat < 2 ^ m.width.bits := by
  have hbits := m.width.bits_lt
  have hdouble : a.toNat <<< 1 < 2 ^ (m.width.bits + 1) := by
    rw [Nat.shiftLeft_eq, pow_succ]
    omega
  have hword : (a.toNat <<< 1) % 2 ^ 64 = a.toNat <<< 1 :=
    Nat.mod_eq_of_lt (lt_of_lt_of_le hdouble (Nat.pow_le_pow_right (by omega) (by omega)))
  have habove (i : Nat) (hi : m.width.bits < i) : (a.toNat <<< 1).testBit i = false :=
    Nat.testBit_lt_two_pow (lt_of_lt_of_le hdouble (Nat.pow_le_pow_right (by omega) (by omega)))
  rw [toNat_timesX, hword]
  apply Nat.lt_pow_two_of_testBit
  intro i hi
  rcases Nat.eq_or_lt_of_le hi with rfl | hlt
  · split
    · next hset => rw [Nat.testBit_xor, hset, h.testBit hi]; simp
    · next hclear => simpa using hclear
  · have hne : i ≠ m.width.bits := by omega
    split
    · rw [Nat.testBit_xor, habove i hlt, h.testBit hi]
      simp [hne]
    · exact habove i hlt

theorem HasDegree.timesXPow_lt (h : m.HasDegree) (n : Nat) {a : UInt64}
    (ha : a.toNat < 2 ^ m.width.bits) : (m.timesXPow n a).toNat < 2 ^ m.width.bits := by
  induction n generalizing a with
  | zero => exact ha
  | succ n ih => exact ih (h.timesX_lt ha)

theorem HasDegree.shiftAdd_lt (h : m.HasDegree) (n : Nat) {a : UInt64} (b : UInt64)
    (ha : a.toNat < 2 ^ m.width.bits) :
    (shiftAdd m.timesX n a b).toNat < 2 ^ m.width.bits := by
  induction n generalizing a b with
  | zero =>
    rw [shiftAdd, UInt64.toNat_zero]
    exact Nat.two_pow_pos _
  | succ n ih =>
    rw [shiftAdd, UInt64.toNat_xor]
    apply Nat.xor_lt_two_pow
    · split
      · exact ha
      · rw [UInt64.toNat_zero]
        exact Nat.two_pow_pos _
    · exact ih (b >>> 1) (h.timesX_lt ha)

theorem HasDegree.mul_lt (h : m.HasDegree) {a : UInt64} (b : UInt64)
    (ha : a.toNat < 2 ^ m.width.bits) : (m.mul a b).toNat < 2 ^ m.width.bits :=
  h.shiftAdd_lt 64 b ha

/-- The product of two elements is the remainder of the product of their
polynomials. -/
theorem HasDegree.bitPoly_mul (h : m.HasDegree) {a b : UInt64}
    (ha : a.toNat < 2 ^ m.width.bits) (hb : b.toNat < 2 ^ m.width.bits) :
    bitPoly 64 (m.mul a b).toNat = bitPoly 64 a.toNat * bitPoly 64 b.toNat %ₘ m.poly := by
  have hle := m.width.bits_lt.le
  have hresidue : m.residue (m.mul a b).toNat =
      AdjoinRoot.mk m.reducer (bitPoly m.width.bits a.toNat * bitPoly m.width.bits b.toNat) := by
    rw [m.residue_mul a hb, map_mul]
    rfl
  rw [bitPoly_of_lt (h.mul_lt b ha) hle, bitPoly_of_lt ha hle, bitPoly_of_lt hb hle, h.poly_eq]
  exact m.bitPoly_eq_modByMonic hresidue

end Degree

end Modulus

section Powers

variable {α M : Type} [Monoid M] {R : α → M → Prop} {mul : α → α → α}

/-- Square and multiply computes powers wherever products stand for products: after
the low bits of the exponent are used up, `result` times the remaining power of
`base` is still the power that was asked for. -/
theorem rel_raiseBits (hmul : ∀ a b r s, R a r → R b s → R (mul a b) (r * s)) (n : Nat)
    {result base : α} {r s : M} {e : Nat} (hresult : R result r) (hbase : R base s)
    (he : e < 2 ^ n) : R (raiseBits mul n result base e) (r * s ^ e) := by
  induction n generalizing result base r s e with
  | zero =>
    obtain rfl : e = 0 := by omega
    simpa [raiseBits] using hresult
  | succ n ih =>
    have hhalf : e / 2 < 2 ^ n := by
      rw [pow_succ] at he
      omega
    have hsquare : R (mul base base) (s * s) := hmul _ _ _ _ hbase hbase
    rw [raiseBits]
    split
    · next hodd =>
      have hpower : r * s * (s * s) ^ (e / 2) = r * s ^ e := by
        rw [← pow_two, ← pow_mul, mul_assoc, ← pow_succ']
        congr 2
        omega
      rw [← hpower]
      exact ih (hmul _ _ _ _ hresult hbase) hsquare hhalf
    · next heven =>
      have hpower : r * (s * s) ^ (e / 2) = r * s ^ e := by
        rw [← pow_two, ← pow_mul]
        congr 2
        omega
      rw [← hpower]
      exact ih hresult hsquare hhalf

theorem rel_raise (hmul : ∀ a b r s, R a r → R b s → R (mul a b) (r * s)) {one base : α}
    {s : M} (hone : R one 1) (hbase : R base s) (e : Nat) : R (raise mul one base e) (s ^ e) := by
  have hbits : e < 2 ^ (e.log2 + 1) := Nat.lt_log2_self
  simpa [raise] using rel_raiseBits hmul (e.log2 + 1) hone hbase hbits

end Powers

theorem Modulus.HasDegree.represents_mul {m : Modulus} (h : m.HasDegree) {a b : UInt64}
    {r s : m.Residue} (ha : m.Represents a.toNat r) (hb : m.Represents b.toNat s) :
    m.Represents (m.mul a b).toNat (r * s) :=
  ⟨h.mul_lt b ha.lt, by rw [m.residue_mul a hb.lt, ha.residue_eq, hb.residue_eq]⟩

theorem Modulus.HasDegree.represents_pow {m : Modulus} (h : m.HasDegree) {base : UInt64}
    {r : m.Residue} (hbase : m.Represents base.toNat r) (e : Nat) :
    m.Represents (m.pow base e).toNat (r ^ e) := by
  let R (a : UInt64) (s : m.Residue) : Prop := m.Represents a.toNat s
  have hmul (a b : UInt64) (s t : m.Residue) (ha : R a s) (hb : R b t) : R (m.mul a b) (s * t) :=
    h.represents_mul ha hb
  have hone : R 1 1 := m.represents_one
  exact rel_raise hmul hone hbase e

end ErasureField
