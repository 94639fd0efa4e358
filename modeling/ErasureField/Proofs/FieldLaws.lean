import ErasureField.Proofs.TableArithmetic

/-!
The laws of a field. Sums, products, quotients and inverses come from different tables,
or from none, and meet in the residues: each result stands for the sum, the product, the
product with the inverse of the divisor, or the inverse. So the laws of the residue ring
hold between the results of the operations, for every field that has tables, and each
operation in them has a result. Powers have their own ways around repeated products, by
reduced exponents and by squares, and stand for the powers of residues all the same.
-/

namespace ErasureField.BinaryField

variable {f : BinaryField} {m : Modulus} {a b c : UInt32}

/-- Products commute and associate and distribute over sums; one is neutral and zero
absorbs. -/
theorem ring_laws (h : TableSet.build m = .ok f.tables)
    (ha : a.toNat ≤ 2 ^ m.width.bits - 1) (hb : b.toNat ≤ 2 ^ m.width.bits - 1)
    (hc : c.toNat ≤ 2 ^ m.width.bits - 1) :
    (∃ p, f.mul a b = .ok p ∧ f.mul b a = .ok p) ∧
    (∃ p q, f.mul b c = .ok p ∧ f.mul a b = .ok q ∧
      ∃ r, f.mul a p = .ok r ∧ f.mul q c = .ok r) ∧
    (∃ s p q, f.add b c = .ok s ∧ f.mul a b = .ok p ∧ f.mul a c = .ok q ∧
      ∃ r, f.mul a s = .ok r ∧ f.add p q = .ok r) ∧
    f.mul a 1 = .ok a ∧ f.mul a 0 = .ok 0 := by
  have hholds := TableSet.holds_of_build h
  rw [← Width.order_eq] at ha hb hc
  have hra := m.represents_of_le_order ha
  have hrb := m.represents_of_le_order hb
  have hrc := m.represents_of_le_order hc
  obtain ⟨ab, hab, hrab⟩ := gives_mul hholds hra hrb
  obtain ⟨ac, hac, hrac⟩ := gives_mul hholds hra hrc
  obtain ⟨bc, hbc, hrbc⟩ := gives_mul hholds hrb hrc
  obtain ⟨s, hs, hrs⟩ := gives_add hholds hrb hrc
  refine ⟨⟨ab, hab, ?_⟩, ⟨bc, ab, hbc, hab, ?_⟩, ⟨s, ab, ac, hs, hab, hac, ?_⟩, ?_, ?_⟩
  · rw [← hab]
    have hba := gives_mul hholds hrb hra
    rw [mul_comm] at hba
    exact hba.unique (gives_mul hholds hra hrb)
  · obtain ⟨r, hr, hrr⟩ := gives_mul hholds hra hrbc
    have hleft := gives_mul hholds hrab hrc
    rw [mul_assoc] at hleft
    exact ⟨r, hr, hleft.unique (Modulus.gives_ok hrr)⟩
  · obtain ⟨r, hr, hrr⟩ := gives_mul hholds hra hrs
    have hsum := gives_add hholds hrab hrac
    rw [← mul_add] at hsum
    exact ⟨r, hr, hsum.unique (Modulus.gives_ok hrr)⟩
  · have hone := gives_mul (b := 1) hholds hra m.represents_one
    rw [mul_one] at hone
    exact hone.unique (Modulus.gives_ok hra)
  · have hzero := gives_mul (b := 0) hholds hra m.represents_zero
    rw [mul_zero] at hzero
    exact hzero.unique (Modulus.gives_ok (v := 0) m.represents_zero)

/-- Distributivity in a field of logarithms, where no table shows it. -/
theorem ring_laws_w16 :
    ∃ f : BinaryField, TableSet.build (Modulus.ofWidth .w16) = .ok f.tables ∧
      ∃ s p q, f.add 0x8001 0xFFFF = .ok s ∧ f.mul 0x1234 0x8001 = .ok p ∧
        f.mul 0x1234 0xFFFF = .ok q ∧ ∃ r, f.mul 0x1234 s = .ok r ∧ f.add p q = .ok r := by
  obtain ⟨t, hbuild, _⟩ := TableSet.build_of_admissible (Modulus.admissible_ofWidth .w16)
  exact ⟨⟨⟨0, t⟩⟩, hbuild,
    (ring_laws (f := ⟨⟨0, t⟩⟩) hbuild (by decide) (by decide) (by decide)).2.2.1⟩

/-- A nonzero element has an inverse, and the residues of the two are inverse to each
other. -/
theorem exists_inv (h : f.tables.Holds m) {s : m.Residue} (hb : m.Represents b.toNat s)
    (hne : b ≠ 0) :
    ∃ (v : UInt32) (i : m.Residue), f.inv b = .ok v ∧ m.Represents v.toNat i ∧ s * i = 1 := by
  obtain ⟨i, hinverse⟩ := h.admissible.exists_mul_eq_one (hb.ne_zero_iff.mp hne)
  obtain ⟨v, hinv, hv⟩ := gives_inv h hb hinverse
  exact ⟨v, i, hinv, hv, hinverse⟩

/-- Division undoes multiplication and multiplication division; a quotient is the
product with the inverse; inverses are inverse, of themselves and of products; and
products of nonzero elements are not zero. -/
theorem division_laws (h : TableSet.build m = .ok f.tables)
    (ha : a.toNat ≤ 2 ^ m.width.bits - 1) (hb : b.toNat ≤ 2 ^ m.width.bits - 1)
    (hc : c.toNat ≤ 2 ^ m.width.bits - 1) (hb0 : b ≠ 0) (hc0 : c ≠ 0) :
    (∃ q, f.div a b = .ok q ∧ f.mul q b = .ok a) ∧
    (∃ p, f.mul a b = .ok p ∧ f.div p b = .ok a) ∧
    (∃ i, f.inv b = .ok i ∧ f.div a b = f.mul a i ∧ f.mul b i = .ok 1 ∧ f.inv i = .ok b) ∧
    (∃ p i j, f.mul b c = .ok p ∧ p ≠ 0 ∧ f.inv b = .ok i ∧ f.inv c = .ok j ∧
      ∃ k, f.inv p = .ok k ∧ f.mul i j = .ok k) := by
  have hholds := TableSet.holds_of_build h
  rw [← Width.order_eq] at ha hb hc
  have hra := m.represents_residue (m.width.lt_two_pow_iff.mpr ha)
  have hrb := m.represents_residue (m.width.lt_two_pow_iff.mpr hb)
  have hrc := m.represents_residue (m.width.lt_two_pow_iff.mpr hc)
  obtain ⟨vb, ib, hinvb, hvb, hib⟩ := exists_inv hholds hrb hb0
  obtain ⟨vc, ic, hinvc, hvc, hic⟩ := exists_inv hholds hrc hc0
  have hib' : ib * m.residue b.toNat = 1 := by rw [mul_comm, hib]
  refine ⟨?_, ?_, ?_, ?_⟩
  · obtain ⟨q, hdiv, hq⟩ := gives_div hholds hra hrb hib
    refine ⟨q, hdiv, ?_⟩
    have hback := gives_mul hholds hq hrb
    rw [mul_assoc, hib', mul_one] at hback
    exact hback.unique (Modulus.gives_ok hra)
  · obtain ⟨p, hmul, hp⟩ := gives_mul hholds hra hrb
    refine ⟨p, hmul, ?_⟩
    have hback := gives_div hholds hp hrb hib
    rw [mul_assoc, hib, mul_one] at hback
    exact hback.unique (Modulus.gives_ok hra)
  · refine ⟨vb, hinvb, ?_, ?_, ?_⟩
    · exact (gives_div hholds hra hrb hib).unique (gives_mul hholds hra hvb)
    · have hone := gives_mul hholds hrb hvb
      rw [hib] at hone
      exact hone.unique (Modulus.gives_ok (v := 1) m.represents_one)
    · exact (gives_inv hholds hvb hib').unique (Modulus.gives_ok hrb)
  · obtain ⟨p, hmul, hp⟩ := gives_mul hholds hrb hrc
    have hinverse : m.residue b.toNat * m.residue c.toNat * (ib * ic) = 1 := by
      calc
        _ = (m.residue b.toNat * ib) * (m.residue c.toNat * ic) := by ring
        _ = 1 := by rw [hib, hic, one_mul]
    have hp0 : p ≠ 0 := hp.ne_zero_iff.mpr (Modulus.ne_zero_of_mul_eq_one hinverse)
    obtain ⟨k, hinvp, hk⟩ := gives_inv hholds hp hinverse
    refine ⟨p, vb, vc, hmul, hp0, hinvb, hinvc, k, hinvp, ?_⟩
    exact (gives_mul hholds hvb hvc).unique (Modulus.gives_ok hk)

/-- Division in the widest field, where inverses are powers. -/
theorem division_laws_w32 :
    ∃ f : BinaryField, TableSet.build (Modulus.ofWidth .w32) = .ok f.tables ∧
      ∃ q, f.div 0x12345678 0x9ABCDEF0 = .ok q ∧ f.mul q 0x9ABCDEF0 = .ok 0x12345678 := by
  obtain ⟨t, hbuild, _⟩ := TableSet.build_of_admissible (Modulus.admissible_ofWidth .w32)
  exact ⟨⟨⟨0, t⟩⟩, hbuild,
    (division_laws (f := ⟨⟨0, t⟩⟩) (c := 1) hbuild (by decide) (by decide) (by decide)
      (by decide) (by decide)).1⟩

/-- Multiplying an element by one factor after the other gives its product with all of
them. -/
theorem gives_foldlM_mul (h : f.tables.Holds m) {factors : List UInt32}
    (hfactors : ∀ v ∈ factors, v.toNat ≤ m.width.order) {r : m.Residue}
    (ha : m.Represents a.toNat r) :
    m.Gives (factors.foldlM f.mul a) (r * (factors.map fun v => m.residue v.toNat).prod) := by
  induction factors generalizing a r with
  | nil => simpa using Modulus.gives_ok ha
  | cons v rest ih =>
    have hv := m.represents_of_le_order (hfactors v (by simp))
    obtain ⟨p, hmul, hp⟩ := gives_mul h ha hv
    have hrest := ih (fun u hu => hfactors u (by simp [hu])) hp
    rw [mul_assoc] at hrest
    simpa only [List.foldlM_cons, hmul, Outcome.ok_bind, List.map_cons, List.prod_cons] using hrest

/-- A power is the product of as many copies of its base as the exponent says, made by one
product after the other from one on. The power of zero is therefore one for the exponent
zero and zero for every other. -/
theorem pow_eq_repeated_product (h : TableSet.build m = .ok f.tables)
    (ha : a.toNat ≤ 2 ^ m.width.bits - 1) (e : Nat) :
    (∃ v, f.pow a e = .ok v ∧ (List.replicate e a).foldlM f.mul 1 = .ok v) ∧
    f.pow 0 0 = .ok 1 ∧ (0 < e → f.pow 0 e = .ok 0) := by
  have hholds := TableSet.holds_of_build h
  rw [← Width.order_eq] at ha
  have hzero (k : Nat) : m.Gives (f.pow 0 k) (0 ^ k) :=
    gives_pow (a := 0) hholds m.represents_zero k
  refine ⟨?_, ?_, ?_⟩
  · obtain ⟨v, hpow, hv⟩ := gives_pow hholds (m.represents_of_le_order ha) e
    have hcopies : ∀ u ∈ List.replicate e a, u.toNat ≤ m.width.order := by
      intro u hu
      rwa [List.eq_of_mem_replicate hu]
    have hproduct := gives_foldlM_mul (a := 1) hholds hcopies m.represents_one
    rw [one_mul, List.map_replicate, List.prod_replicate] at hproduct
    exact ⟨v, hpow, hproduct.eq_ok hv⟩
  · have hone := hzero 0
    rw [pow_zero] at hone
    exact hone.eq_ok (v := 1) m.represents_one
  · intro hpos
    have hnone := hzero e
    rw [zero_pow hpos.ne'] at hnone
    exact hnone.eq_ok (v := 0) m.represents_zero

/-- The largest exponent of 64 bits in the widest field, where exponents are reduced and
powers made by squares. -/
theorem pow_eq_repeated_product_w32 :
    ∃ f : BinaryField, TableSet.build (Modulus.ofWidth .w32) = .ok f.tables ∧
      (∃ v, f.pow 0x12345678 0xFFFFFFFFFFFFFFFF = .ok v ∧
        (List.replicate 0xFFFFFFFFFFFFFFFF 0x12345678).foldlM f.mul 1 = .ok v) ∧
      f.pow 0 0xFFFFFFFFFFFFFFFF = .ok 0 := by
  obtain ⟨t, hbuild, _⟩ := TableSet.build_of_admissible (Modulus.admissible_ofWidth .w32)
  obtain ⟨hproduct, _, hzero⟩ := pow_eq_repeated_product (f := ⟨⟨0, t⟩⟩) (a := 0x12345678) hbuild
    (by decide) 0xFFFFFFFFFFFFFFFF
  exact ⟨⟨⟨0, t⟩⟩, hbuild, hproduct, hzero (by decide)⟩

end ErasureField.BinaryField
