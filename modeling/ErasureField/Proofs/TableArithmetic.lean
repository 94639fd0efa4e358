import ErasureField.BinaryField
import ErasureField.Proofs.TableSet

/-!
Element arithmetic by tables. Whatever the layout, the product, quotient and inverse
that built tables give for elements are those of the residues; a field adds only the
checks of the operands. Since every element has one residue, equations between
residues are equations between elements. So products by tables are the products by
shifts, which are the remainders of the products of polynomials.
-/

namespace ErasureField

open Polynomial

namespace Modulus

variable {m : Modulus}

theorem Gives.unique {first second : Outcome UInt32} {r : m.Residue} (h : m.Gives first r)
    (h' : m.Gives second r) : first = second := by
  obtain ⟨v, rfl, hv⟩ := h
  obtain ⟨v', rfl, hv'⟩ := h'
  rw [UInt32.toNat_inj.mp (hv.unique hv')]

theorem gives_ok {v : UInt32} {r : m.Residue} (hv : m.Represents v.toNat r) :
    m.Gives (.ok v) r :=
  ⟨v, rfl, hv⟩

/-- An outcome that gives a residue is the element that stands for it. -/
theorem Gives.eq_ok {outcome : Outcome UInt32} {v : UInt32} {r : m.Residue}
    (h : m.Gives outcome r) (hv : m.Represents v.toNat r) : outcome = .ok v :=
  h.unique (gives_ok hv)

theorem Represents.ne_zero_iff {v : UInt32} {r : m.Residue} (hv : m.Represents v.toNat r) :
    v ≠ 0 ↔ r ≠ 0 := by
  constructor
  · rintro hne rfl
    exact hne (UInt32.toNat_inj.mp (hv.unique m.represents_zero))
  · rintro hne rfl
    exact hne (hv.residue_eq.symm.trans m.residue_zero)

end Modulus

namespace TableSet

variable {m : Modulus} {t : TableSet} {a b : UInt32} {r s : m.Residue}

theorem Holds.gives_mul (h : t.Holds m) (ha : m.Represents a.toNat r)
    (hb : m.Represents b.toNat s) : m.Gives (t.mul a b) (r * s) := by
  obtain ⟨_, layout⟩ := t
  obtain ⟨_, _, hlayout⟩ := h
  cases hlayout with
  | gf8 _ hproducts =>
    have habyte : a.toNat % 2 ^ 8 = a.toNat := Nat.mod_eq_of_lt ha.lt
    have hbbyte : b.toNat % 2 ^ 8 = b.toNat := Nat.mod_eq_of_lt hb.lt
    have hproduct := hproducts a.toUInt8 b.toUInt8
    rw [UInt32.toNat_toUInt8, UInt32.toNat_toUInt8, habyte, hbbyte, ha.residue_eq,
      hb.residue_eq, ← UInt8.toNat_toUInt32] at hproduct
    exact Modulus.gives_ok hproduct
  | gf16 hlogs => exact hlogs.gives_mul ha hb
  | gf32 p => exact Modulus.gives_ok (PartialProducts.represents_mul ha hb)

/-- Quotients by tables are products with inverses. -/
theorem Holds.gives_div (h : t.Holds m) (ha : m.Represents a.toNat r)
    (hb : m.Represents b.toNat s) {i : m.Residue} (hinverse : s * i = 1) :
    m.Gives (t.div a b) (r * i) := by
  have hne : b ≠ 0 := hb.ne_zero_iff.mpr (Modulus.ne_zero_of_mul_eq_one hinverse)
  obtain ⟨_, layout⟩ := t
  obtain ⟨hm, _, hlayout⟩ := h
  cases hlayout with
  | gf8 hlogs _ => exact hlogs.gives_div hm ha hb hne hinverse
  | gf16 hlogs => exact hlogs.gives_div hm ha hb hne hinverse
  | gf32 p =>
    apply Modulus.gives_ok
    split
    · next hzero =>
      have hr : r = 0 := by
        rw [← ha.residue_eq, hzero]
        exact Modulus.residue_zero _
      rw [hr, zero_mul]
      exact Modulus.represents_zero _
    · exact PartialProducts.represents_mul ha (PartialProducts.represents_inv hm hb hinverse)

theorem Holds.gives_inv (h : t.Holds m) (ha : m.Represents a.toNat r) {i : m.Residue}
    (hinverse : r * i = 1) : m.Gives (t.inv a) i := by
  have hne : a ≠ 0 := ha.ne_zero_iff.mpr (Modulus.ne_zero_of_mul_eq_one hinverse)
  obtain ⟨_, layout⟩ := t
  obtain ⟨hm, _, hlayout⟩ := h
  cases hlayout with
  | gf8 hlogs _ => exact hlogs.gives_inv hm ha hne hinverse
  | gf16 hlogs => exact hlogs.gives_inv hm ha hne hinverse
  | gf32 p => exact Modulus.gives_ok (PartialProducts.represents_inv hm ha hinverse)

theorem Holds.gives_pow (h : t.Holds m) (ha : m.Represents a.toNat r) (e : Nat) :
    m.Gives (t.pow a e) (r ^ e) := by
  obtain ⟨_, layout⟩ := t
  obtain ⟨hm, _, hlayout⟩ := h
  cases hlayout with
  | gf8 hlogs _ => exact hlogs.gives_pow hm ha e
  | gf16 hlogs => exact hlogs.gives_pow hm ha e
  | gf32 p =>
    apply Modulus.gives_ok
    split
    · next he =>
      rw [he, pow_zero]
      exact Modulus.represents_one _
    · next he =>
      split
      · next hzero =>
        have hr : r = 0 := by
          rw [← ha.residue_eq, hzero]
          exact Modulus.residue_zero _
        rw [hr, zero_pow he]
        exact Modulus.represents_zero _
      · next hne =>
        rw [← hm.pow_mod (ha.ne_zero_iff.mp hne)]
        exact PartialProducts.represents_pow ha _

end TableSet

namespace BinaryField

variable {f : BinaryField} {m : Modulus} {a b c : UInt32} {r s : m.Residue}

theorem order_eq (f : BinaryField) : f.tables.modulus.width.order = 2 ^ f.width.bits - 1 :=
  Width.order_eq _

/-- Elements of the modulus pass the check of a field with its tables. -/
theorem check_element (h : f.tables.Holds m) (ha : m.Represents a.toNat r) (operation : String) :
    Check.element operation a f.width = .ok () := by
  have hwidth : f.width = m.width := h.width_eq
  apply Check.element_ok
  rw [hwidth]
  exact m.width.lt_two_pow_iff.mp ha.lt

theorem gives_add (h : f.tables.Holds m) (ha : m.Represents a.toNat r)
    (hb : m.Represents b.toNat s) : m.Gives (f.add a b) (r + s) := by
  simp only [add, check_element h ha, check_element h hb, Outcome.ok_bind]
  exact Modulus.gives_ok (ha.add hb)

theorem gives_mul (h : f.tables.Holds m) (ha : m.Represents a.toNat r)
    (hb : m.Represents b.toNat s) : m.Gives (f.mul a b) (r * s) := by
  simp only [mul, check_element h ha, check_element h hb, Outcome.ok_bind]
  exact h.gives_mul ha hb

theorem gives_div (h : f.tables.Holds m) (ha : m.Represents a.toNat r)
    (hb : m.Represents b.toNat s) {i : m.Residue} (hinverse : s * i = 1) :
    m.Gives (f.div a b) (r * i) := by
  have hne : b ≠ 0 := hb.ne_zero_iff.mpr (Modulus.ne_zero_of_mul_eq_one hinverse)
  simp only [div, check_element h ha, check_element h hb, Check.nonzero_ok hne, Outcome.ok_bind]
  exact h.gives_div ha hb hinverse

theorem gives_inv (h : f.tables.Holds m) (ha : m.Represents a.toNat r) {i : m.Residue}
    (hinverse : r * i = 1) : m.Gives (f.inv a) i := by
  have hne : a ≠ 0 := ha.ne_zero_iff.mpr (Modulus.ne_zero_of_mul_eq_one hinverse)
  simp only [inv, check_element h ha, Check.nonzero_ok hne, Outcome.ok_bind]
  exact h.gives_inv ha hinverse

theorem gives_pow (h : f.tables.Holds m) (ha : m.Represents a.toNat r) (e : Nat) :
    m.Gives (f.pow a e) (r ^ e) := by
  simp only [pow, check_element h ha, Outcome.ok_bind]
  exact h.gives_pow ha e

/-- The product of two elements of a field is their product by shifts, which is an
element and the remainder of the product of their polynomials. -/
theorem mul_eq_shift_product (h : TableSet.build m = .ok f.tables)
    (ha : a.toNat ≤ 2 ^ m.width.bits - 1) (hb : b.toNat ≤ 2 ^ m.width.bits - 1) :
    f.mul a b = .ok (m.mul a.toUInt64 b.toUInt64).toUInt32 ∧
      (m.mul a.toUInt64 b.toUInt64).toNat ≤ 2 ^ m.width.bits - 1 ∧
      bitPoly 64 (m.mul a.toUInt64 b.toUInt64).toNat =
        bitPoly 64 a.toNat * bitPoly 64 b.toNat %ₘ m.poly := by
  have hholds := TableSet.holds_of_build h
  have hdegree := hholds.admissible.degree
  rw [← Width.order_eq] at ha hb ⊢
  have ha' : m.Represents a.toUInt64.toNat (m.residue a.toNat) :=
    m.represents_residue (m.width.lt_two_pow_iff.mpr ha)
  have hb' : m.Represents b.toUInt64.toNat (m.residue b.toNat) :=
    m.represents_residue (m.width.lt_two_pow_iff.mpr hb)
  have hproduct := hdegree.represents_mul ha' hb'
  have hle := m.width.lt_two_pow_iff.mp hproduct.lt
  have hword : (m.mul a.toUInt64 b.toUInt64).toUInt32.toNat =
      (m.mul a.toUInt64 b.toUInt64).toNat := by
    have := m.width.order_lt
    rw [UInt64.toNat_toUInt32, Nat.mod_eq_of_lt (by omega)]
  refine ⟨?_, hle, ?_⟩
  · rw [← hword] at hproduct
    exact (gives_mul hholds ha' hb').unique (Modulus.gives_ok hproduct)
  · exact hdegree.bitPoly_mul ha'.lt hb'.lt

/-- The widest field, whose products are sums of sixteen partial products. -/
theorem mul_eq_shift_product_w32 :
    ∃ f : BinaryField, TableSet.build (Modulus.ofWidth .w32) = .ok f.tables ∧
      f.mul 0x12345678 0x9ABCDEF0 = .ok 0x808E945D := by
  obtain ⟨t, hbuild, _⟩ := TableSet.build_of_admissible (Modulus.admissible_ofWidth .w32)
  have hproduct : ((Modulus.ofWidth .w32).mul (0x12345678 : UInt32).toUInt64
      (0x9ABCDEF0 : UInt32).toUInt64).toUInt32 = 0x808E945D := by
    decide +kernel
  refine ⟨⟨⟨0, t⟩⟩, hbuild, ?_⟩
  rw [(mul_eq_shift_product (f := ⟨⟨0, t⟩⟩) hbuild (by decide) (by decide)).1, hproduct]

end BinaryField

end ErasureField
