import ErasureField.Proofs.Residue
import Mathlib.FieldTheory.Finiteness
import Mathlib.GroupTheory.OrderOfElement
import Mathlib.RingTheory.Fintype
import Mathlib.Tactic.NormNum.Prime

/-!
When the powers of `x` are all nonzero residues. A polynomial is admissible when it
has the degree of its width and a constant term and the least power of `x` that is
one has exponent `2^w - 1`. There are as many nonzero residues, so each is then a
power of `x` and has an inverse; the residues are a field and the polynomial is
irreducible. The order test looks at few exponents: an order that divides `2^w - 1`
and none of its quotients by a prime factor is `2^w - 1` itself.
-/

namespace ErasureField

open Polynomial

namespace Width

theorem order_eq (w : Width) : w.order = 2 ^ w.bits - 1 := by
  cases w <;> rfl

theorem order_pos (w : Width) : 0 < w.order := by
  cases w <;> decide

theorem order_lt (w : Width) : w.order < 2 ^ 32 := by
  cases w <;> decide

theorem order_eq_prod (w : Width) : w.order = w.params.orderFactors.prod := by
  cases w <;> rfl

theorem prime_of_mem_orderFactors (w : Width) {q : Nat} (hq : q ∈ w.params.orderFactors) :
    q.Prime := by
  cases w <;> simp only [params, List.mem_cons, List.not_mem_nil, or_false] at hq
  · rcases hq with rfl | rfl | rfl <;> norm_num
  · rcases hq with rfl | rfl | rfl | rfl <;> norm_num
  · rcases hq with rfl | rfl | rfl | rfl | rfl <;> norm_num

/-- The list of factors has every prime that divides the number of nonzero
elements. -/
theorem mem_orderFactors (w : Width) {q : Nat} (hq : q.Prime) (hdvd : q ∣ w.order) :
    q ∈ w.params.orderFactors := by
  rw [order_eq_prod, Prime.dvd_prod_iff hq.prime] at hdvd
  obtain ⟨factor, hmem, hfactor⟩ := hdvd
  have heq : q = factor :=
    (Nat.prime_dvd_prime_iff_eq hq (w.prime_of_mem_orderFactors hmem)).mp hfactor
  rwa [heq]

end Width

namespace Modulus

variable {m : Modulus}

structure Admissible (m : Modulus) : Prop where
  degree : m.HasDegree
  odd : m.polynomial &&& 1 = 1
  order : IsLeast {k | 1 ≤ k ∧ m.poly ∣ X ^ k - 1} m.width.order

theorem HasDegree.x_pow_eq_one_iff (h : m.HasDegree) (k : Nat) :
    m.x ^ k = 1 ↔ m.poly ∣ X ^ k - 1 := by
  rw [h.poly_eq, ← AdjoinRoot.mk_eq_mk, map_pow, AdjoinRoot.mk_X, map_one, x]

theorem HasDegree.isLeast_iff (h : m.HasDegree) {n : Nat} (hn : 0 < n) :
    IsLeast {k | 1 ≤ k ∧ m.poly ∣ X ^ k - 1} n ↔ orderOf m.x = n := by
  rw [orderOf_eq_iff hn, IsLeast, mem_lowerBounds]
  simp only [Set.mem_ofPred_eq, ← h.x_pow_eq_one_iff]
  constructor
  · rintro ⟨⟨_, hone⟩, hleast⟩
    refine ⟨hone, ?_⟩
    intro k hk hpos heq
    have hle := hleast k ⟨hpos, heq⟩
    omega
  · rintro ⟨hone, hless⟩
    refine ⟨⟨hn, hone⟩, ?_⟩
    rintro k ⟨hpos, heq⟩
    by_contra hlt
    exact hless k (by omega) hpos heq

/-- A polynomial that divides some `X ^ k - 1` has a constant term, since it would otherwise make
that of `X ^ k - 1` zero. -/
theorem HasDegree.odd_of_x_pow_eq_one (h : m.HasDegree) {k : Nat} (hk : 0 < k)
    (hone : m.x ^ k = 1) : m.polynomial &&& 1 = 1 := by
  obtain ⟨cofactor, hfactor⟩ := (h.x_pow_eq_one_iff k).mp hone
  have hconstant := congrArg (fun p : (ZMod 2)[X] => p.coeff 0) hfactor
  have hne : (0 : Nat) ≠ k := by omega
  simp only [coeff_sub, coeff_X_pow, hne, if_false, coeff_one_zero, mul_coeff_zero, poly,
    coeff_bitPoly] at hconstant
  rw [and_one_eq_one_iff]
  by_contra heven
  rw [if_neg (fun hlow => heven hlow.2), zero_mul] at hconstant
  simp at hconstant

/-- Of an admissible polynomial nothing is left to ask once its degree and the order
of `x` are known. -/
theorem admissible_iff : m.Admissible ↔ m.HasDegree ∧ orderOf m.x = m.width.order := by
  constructor
  · intro h
    exact ⟨h.degree, (h.degree.isLeast_iff m.width.order_pos).mp h.order⟩
  · rintro ⟨hdegree, horder⟩
    have hone : m.x ^ m.width.order = 1 := by
      rw [← horder, pow_orderOf_eq_one]
    exact ⟨hdegree, hdegree.odd_of_x_pow_eq_one m.width.order_pos hone,
      (hdegree.isLeast_iff m.width.order_pos).mpr horder⟩

theorem natCard_residue (m : Modulus) : Nat.card m.Residue = 2 ^ m.width.bits := by
  have hfinite : Module.Finite (ZMod 2) m.Residue :=
    (AdjoinRoot.powerBasis' m.reducer_monic).finite
  have hrank : Module.finrank (ZMod 2) m.Residue = m.width.bits := by
    rw [(AdjoinRoot.powerBasis' m.reducer_monic).finrank]
    exact m.natDegree_reducer
  rw [Module.natCard_eq_pow_finrank (K := ZMod 2), hrank, Nat.card_zmod]

theorem finite_residue (m : Modulus) : Finite m.Residue :=
  Nat.finite_of_card_ne_zero (by
    rw [natCard_residue]
    exact (Nat.two_pow_pos _).ne')

/-- Whatever the polynomial, the powers of `x` do not go through more residues than
there are besides zero. -/
theorem orderOf_x_le (m : Modulus) : orderOf m.x ≤ m.width.order := by
  have hfinite := m.finite_residue
  have hnontrivial : Nontrivial m.Residue := ⟨1, 0, m.one_ne_zero_residue⟩
  have hlt := orderOf_lt_card m.x
  rwa [natCard_residue, m.width.lt_two_pow_iff] at hlt

/-- The powers of `x` return to one exactly when there is a constant term: then `x` times
the terms above it, brought down by one degree, is one. -/
theorem HasDegree.orderOf_x_pos_iff (h : m.HasDegree) :
    0 < orderOf m.x ↔ m.polynomial &&& 1 = 1 := by
  constructor
  · intro hpos
    exact h.odd_of_x_pow_eq_one hpos (pow_orderOf_eq_one m.x)
  · intro hodd
    have hconstant : m.poly.coeff 0 = 1 := by
      rw [poly, coeff_bitPoly, if_pos ⟨by omega, (and_one_eq_one_iff _).mp hodd⟩]
    have hsplit : AdjoinRoot.mk m.reducer m.poly.divX * m.x + 1 = 0 := by
      have hmk := congrArg (AdjoinRoot.mk m.reducer) (divX_mul_X_add m.poly)
      rw [hconstant, map_one, map_add, map_mul, map_one, AdjoinRoot.mk_X] at hmk
      rw [x, hmk, h.poly_eq, AdjoinRoot.mk_self]
    have hunit : IsUnit m.x := by
      apply IsUnit.of_mul_eq_one_right (AdjoinRoot.mk m.reducer m.poly.divX)
      linear_combination hsplit - m.add_self 1
    have hfinite := m.finite_residue
    exact hunit.isOfFinOrder.orderOf_pos

theorem Admissible.orderOf_x (h : m.Admissible) : orderOf m.x = m.width.order :=
  (admissible_iff.mp h).2

theorem Admissible.x_pow_order (h : m.Admissible) : m.x ^ m.width.order = 1 := by
  rw [← h.orderOf_x, pow_orderOf_eq_one]

theorem Admissible.x_pow_mod (h : m.Admissible) (i : Nat) :
    m.x ^ (i % m.width.order) = m.x ^ i := by
  rw [← h.orderOf_x, pow_mod_orderOf]

theorem Admissible.x_pow_mul_x_pow (h : m.Admissible) {i : Nat} (hi : i ≤ m.width.order) :
    m.x ^ i * m.x ^ (m.width.order - i) = 1 := by
  rw [← pow_add, Nat.add_sub_cancel' hi, h.x_pow_order]

/-- Powers below the order are told apart by their exponents. -/
theorem Admissible.x_pow_inj (h : m.Admissible) {i j : Nat} (hi : i < m.width.order)
    (hj : j < m.width.order) (hij : m.x ^ i = m.x ^ j) : i = j := by
  rw [← h.orderOf_x] at hi hj
  exact pow_injOn_Iio_orderOf hi hj hij

theorem Admissible.x_pow_ne_zero (h : m.Admissible) (i : Nat) : m.x ^ i ≠ 0 := by
  intro hzero
  have hone : (m.x ^ i) ^ m.width.order = 1 := by
    rw [← pow_mul, Nat.mul_comm, pow_mul, h.x_pow_order, one_pow]
  rw [hzero, zero_pow m.width.order_pos.ne'] at hone
  exact m.one_ne_zero_residue hone.symm

/-- Every nonzero residue is a power of `x`: the powers below the order are
different and not zero, and there are as many of them. -/
theorem Admissible.exists_x_pow (h : m.Admissible) {r : m.Residue} (hr : r ≠ 0) :
    ∃ i < m.width.order, r = m.x ^ i := by
  classical
  have hfinite := m.finite_residue
  have hfintype : Fintype m.Residue := Fintype.ofFinite m.Residue
  let powers : Finset m.Residue := (Finset.range m.width.order).image fun i => m.x ^ i
  have hcard : powers.card = m.width.order := by
    rw [Finset.card_image_of_injOn, Finset.card_range]
    intro i hi j hj hij
    exact h.x_pow_inj (Finset.mem_range.mp hi) (Finset.mem_range.mp hj) hij
  have hsubset : powers ⊆ Finset.univ.erase 0 := by
    intro s hs
    obtain ⟨i, _, rfl⟩ := Finset.mem_image.mp hs
    exact Finset.mem_erase.mpr ⟨h.x_pow_ne_zero i, Finset.mem_univ _⟩
  have hnonzero : (Finset.univ.erase (0 : m.Residue)).card ≤ powers.card := by
    rw [hcard, Finset.card_erase_of_mem (Finset.mem_univ _), Finset.card_univ,
      ← Nat.card_eq_fintype_card, natCard_residue, Width.order_eq]
  have hall : powers = Finset.univ.erase 0 := Finset.eq_of_subset_of_card_le hsubset hnonzero
  have hmem : r ∈ powers := by
    rw [hall]
    exact Finset.mem_erase.mpr ⟨hr, Finset.mem_univ r⟩
  obtain ⟨i, hi, heq⟩ := Finset.mem_image.mp hmem
  exact ⟨i, Finset.mem_range.mp hi, heq.symm⟩

theorem Admissible.exists_mul_eq_one (h : m.Admissible) {r : m.Residue} (hr : r ≠ 0) :
    ∃ s, r * s = 1 := by
  obtain ⟨i, hi, rfl⟩ := h.exists_x_pow hr
  exact ⟨m.x ^ (m.width.order - i), h.x_pow_mul_x_pow hi.le⟩

theorem Admissible.pow_order (h : m.Admissible) {r : m.Residue} (hr : r ≠ 0) :
    r ^ m.width.order = 1 := by
  obtain ⟨i, _, rfl⟩ := h.exists_x_pow hr
  rw [← pow_mul, Nat.mul_comm, pow_mul, h.x_pow_order, one_pow]

theorem Admissible.pow_mod (h : m.Admissible) {r : m.Residue} (hr : r ≠ 0) (e : Nat) :
    r ^ (e % m.width.order) = r ^ e := by
  calc
    r ^ (e % m.width.order) =
        r ^ (e % m.width.order) * (r ^ m.width.order) ^ (e / m.width.order) := by
      rw [h.pow_order hr, one_pow, mul_one]
    _ = r ^ e := by rw [← pow_mul, ← pow_add, Nat.mod_add_div]

theorem Admissible.mul_ne_zero (h : m.Admissible) {r s : m.Residue} (hr : r ≠ 0) (hs : s ≠ 0) :
    r * s ≠ 0 := by
  obtain ⟨inverse, hinverse⟩ := h.exists_mul_eq_one hr
  intro hzero
  apply hs
  calc
    s = (r * inverse) * s := by rw [hinverse, one_mul]
    _ = inverse * (r * s) := by ring
    _ = 0 := by rw [hzero, mul_zero]

theorem Admissible.irreducible (h : m.Admissible) : Irreducible m.poly := by
  rw [h.degree.poly_eq]
  have hnontrivial : Nontrivial m.Residue := ⟨1, 0, m.one_ne_zero_residue⟩
  have hcancel : NoZeroDivisors m.Residue := by
    refine ⟨?_⟩
    intro r s hrs
    by_contra hne
    rw [not_or] at hne
    exact h.mul_ne_zero hne.1 hne.2 hrs
  have hdomain : IsDomain ((ZMod 2)[X] ⧸ Ideal.span {m.reducer}) :=
    NoZeroDivisors.to_isDomain m.Residue
  have hprime : (Ideal.span {m.reducer}).IsPrime :=
    (Ideal.Quotient.isDomain_iff_prime _).mp hdomain
  exact ((Ideal.span_singleton_prime m.reducer_monic.ne_zero).mp hprime).irreducible

theorem HasDegree.pow_generator_eq_one_iff (h : m.HasDegree) (e : Nat) :
    m.pow generator.toUInt64 e = 1 ↔ m.x ^ e = 1 := by
  have hgenerator : m.Represents generator.toUInt64.toNat m.x := m.represents_two
  have hpower := h.represents_pow hgenerator e
  constructor
  · intro hone
    rw [← hpower.residue_eq, hone]
    exact m.residue_one
  · intro hone
    rw [hone] at hpower
    rw [← UInt64.toNat_inj]
    exact hpower.unique m.represents_one

/-- The order test finds out whether `x` has the order `2^w - 1`. The residues need
not be a field for this: an order that divides `2^w - 1` and is less divides one of
the quotients that are tried. -/
theorem HasDegree.isPrimitive_iff (h : m.HasDegree) :
    m.isPrimitive = true ↔ orderOf m.x = m.width.order := by
  simp only [isPrimitive, Bool.and_eq_true, beq_iff_eq, List.all_eq_true, bne_iff_ne, ne_eq,
    h.pow_generator_eq_one_iff]
  constructor
  · rintro ⟨hone, hquotients⟩
    apply orderOf_eq_of_pow_and_pow_div_prime m.width.order_pos hone
    intro q hq hdvd
    exact hquotients q (m.width.mem_orderFactors hq hdvd)
  · intro horder
    refine ⟨by rw [← horder, pow_orderOf_eq_one], ?_⟩
    intro q hq
    have hprime := m.width.prime_of_mem_orderFactors hq
    have hdvd : q ∣ m.width.order := by
      rw [Width.order_eq_prod]
      exact List.dvd_prod hq
    apply pow_ne_one_of_lt_orderOf
    · exact (Nat.div_pos (Nat.le_of_dvd m.width.order_pos hdvd) hprime.pos).ne'
    · rw [horder]
      exact Nat.div_lt_self m.width.order_pos hprime.one_lt

theorem admissible_ofWidth (w : Width) : (ofWidth w).Admissible := by
  have hdegree : (ofWidth w).HasDegree := by
    unfold HasDegree
    cases w <;> decide
  have htest : (ofWidth w).isPrimitive = true := by
    cases w <;> decide +kernel
  exact admissible_iff.mpr ⟨hdegree, hdegree.isPrimitive_iff.mp htest⟩

end Modulus

end ErasureField
