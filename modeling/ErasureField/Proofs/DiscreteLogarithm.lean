import ErasureField.Proofs.TableArithmetic

/-!
Logarithms to the base `x`, as the tables of a field give them out. In the widths that have
tables of logarithms every nonzero element has one below the order, which is the exponent
of the power of `x` that it is, and every exponent has its power, those from the order on
after reduction. Exponents are the same when they leave the same remainder by the order, so
the two look-ups undo each other and turn products into sums, also in the width that has
all its products in a table of their own.
-/

namespace ErasureField

/-- Of the exponents of a power one is below the order, the remainder of all of them. -/
theorem Modulus.Admissible.eq_mod_of_x_pow_eq {m : Modulus} (h : m.Admissible) {i j : Nat}
    (hj : j < m.width.order) (heq : m.x ^ i = m.x ^ j) : j = i % m.width.order := by
  apply h.x_pow_inj hj (Nat.mod_lt i m.width.order_pos)
  rw [h.x_pow_mod, heq]

namespace TableSet

variable {m : Modulus} {t : TableSet} {a : UInt32} {i : Nat}

theorem Holds.contains_iff (h : t.Holds m) :
    t.width.contains a.toNat = true ↔ a.toNat ≤ m.width.order := by
  rw [h.width_eq]
  exact m.width.contains_iff a.toNat

section Logarithms

variable (h : t.Holds m) (hw : m.width = .w8 ∨ m.width = .w16)

include h hw

/-- Nonzero elements have logarithms, and are the powers of `x` with these exponents. -/
theorem Holds.exists_log? (ha : a.toNat ≤ m.width.order) (hne : a ≠ 0) :
    ∃ i < m.width.order, t.log? a = .ok (some i) ∧ m.Represents a.toNat (m.x ^ i) := by
  have hrepresents := m.represents_of_le_order ha
  have hcontains := h.contains_iff.mpr ha
  obtain ⟨_, layout⟩ := t
  obtain ⟨_, _, hlayout⟩ := h
  cases hlayout with
  | gf8 hlogs _ =>
    obtain ⟨i, hi, hlog, hr⟩ := hlogs.logOf a hrepresents.lt hne
    exact ⟨i, hi, by simp [log?, hne, hcontains, hlog], hr ▸ hrepresents⟩
  | gf16 hlogs =>
    obtain ⟨i, hi, hlog, hr⟩ := hlogs.logOf a hrepresents.lt hne
    exact ⟨i, hi, by simp [log?, hne, hcontains, hlog], hr ▸ hrepresents⟩
  | gf32 p => simp at hw

/-- Every exponent has its power. -/
theorem Holds.exists_antilog? (i : Nat) :
    ∃ v, t.antilog? i = .ok (some v) ∧ m.Represents v.toNat (m.x ^ i) := by
  have hlt : i % m.width.order < 2 * m.width.order := by
    have := Nat.mod_lt i m.width.order_pos
    omega
  rw [← h.admissible.x_pow_mod i]
  obtain ⟨_, layout⟩ := t
  obtain ⟨_, _, hlayout⟩ := h
  cases hlayout with
  | gf8 hlogs _ =>
    obtain ⟨v, hpower, hv⟩ := hlogs.powerOf _ hlt
    exact ⟨v, by simp [antilog?, width, Layout.width, hpower], hv⟩
  | gf16 hlogs =>
    obtain ⟨v, hpower, hv⟩ := hlogs.powerOf _ hlt
    exact ⟨v, by simp [antilog?, width, Layout.width, hpower], hv⟩
  | gf32 p => simp at hw

/-- The logarithm of a power is the remainder of its exponent. -/
theorem Holds.log?_of_x_pow (ha : m.Represents a.toNat (m.x ^ i)) :
    t.log? a = .ok (some (i % m.width.order)) := by
  have hne : a ≠ 0 := ha.ne_zero_iff.mpr (h.admissible.x_pow_ne_zero i)
  obtain ⟨j, hj, hlog, hpower⟩ := h.exists_log? hw (m.width.lt_two_pow_iff.mp ha.lt) hne
  rw [hlog, h.admissible.eq_mod_of_x_pow_eq hj (ha.residue_eq.symm.trans hpower.residue_eq)]

/-- The power with the logarithm of an element as its exponent is the element. -/
theorem Holds.antilog?_of_x_pow (ha : m.Represents a.toNat (m.x ^ i)) :
    t.antilog? i = .ok (some a) := by
  obtain ⟨v, hpower, hv⟩ := h.exists_antilog? hw i
  rw [hpower, UInt32.toNat_inj.mp (hv.unique ha)]

theorem Holds.log?_eq_none_iff :
    t.log? a = .ok none ↔ a = 0 ∨ m.width.order < a.toNat := by
  constructor
  · intro hnone
    by_contra hsome
    rw [not_or, Nat.not_lt] at hsome
    obtain ⟨i, _, hlog, _⟩ := h.exists_log? hw hsome.2 hsome.1
    rw [hnone] at hlog
    cases hlog
  · intro hoff
    apply if_pos
    rwa [← Bool.not_eq_true, h.contains_iff, Nat.not_le]

end Logarithms

end TableSet

namespace BinaryField

variable {f : BinaryField} {m : Modulus}

/-- Logarithms and powers of a field of width 8 or 16. Zero and numbers that are no elements
have no logarithm. Every other element has one below the order, of which it is the power;
every exponent has a power, which is a nonzero element, has the remainder of the exponent
as its logarithm and is the power of two that the field computes. The logarithm of a product
is the remainder of the sum of the logarithms. -/
theorem logarithm_laws (h : TableSet.build m = .ok f.tables)
    (hw : m.width = .w8 ∨ m.width = .w16) :
    (∀ a : UInt32, f.tables.log? a = .ok none ↔ a = 0 ∨ 2 ^ m.width.bits - 1 < a.toNat) ∧
    (∀ a : UInt32, a ≠ 0 → a.toNat ≤ 2 ^ m.width.bits - 1 →
      ∃ i < 2 ^ m.width.bits - 1,
        f.tables.log? a = .ok (some i) ∧ f.tables.antilog? i = .ok (some a)) ∧
    (∀ i : Nat, ∃ v : UInt32, v ≠ 0 ∧ v.toNat ≤ 2 ^ m.width.bits - 1 ∧
      f.tables.antilog? i = .ok (some v) ∧
      f.tables.log? v = .ok (some (i % (2 ^ m.width.bits - 1))) ∧ f.pow 2 i = .ok v) ∧
    ∀ a b : UInt32, a ≠ 0 → b ≠ 0 → a.toNat ≤ 2 ^ m.width.bits - 1 →
      b.toNat ≤ 2 ^ m.width.bits - 1 →
      ∃ i j p, f.tables.log? a = .ok (some i) ∧ f.tables.log? b = .ok (some j) ∧
        f.mul a b = .ok p ∧ f.tables.log? p = .ok (some ((i + j) % (2 ^ m.width.bits - 1))) := by
  have hholds := TableSet.holds_of_build h
  rw [← Width.order_eq]
  refine ⟨fun a => hholds.log?_eq_none_iff hw, ?_, ?_, ?_⟩
  · intro a hne ha
    obtain ⟨i, hi, hlog, hpower⟩ := hholds.exists_log? hw ha hne
    exact ⟨i, hi, hlog, hholds.antilog?_of_x_pow hw hpower⟩
  · intro i
    obtain ⟨v, hantilog, hv⟩ := hholds.exists_antilog? hw i
    have hne : v ≠ 0 := hv.ne_zero_iff.mpr (hholds.admissible.x_pow_ne_zero i)
    have hpow : m.Gives (f.pow 2 i) (m.x ^ i) := gives_pow (a := 2) hholds m.represents_two i
    exact ⟨v, hne, m.width.lt_two_pow_iff.mp hv.lt, hantilog, hholds.log?_of_x_pow hw hv,
      hpow.eq_ok hv⟩
  · intro a b ha0 hb0 ha hb
    obtain ⟨i, _, hlogA, hpowerA⟩ := hholds.exists_log? hw ha ha0
    obtain ⟨j, _, hlogB, hpowerB⟩ := hholds.exists_log? hw hb hb0
    obtain ⟨p, hmul, hp⟩ := gives_mul hholds hpowerA hpowerB
    rw [← pow_add] at hp
    exact ⟨i, j, p, hlogA, hlogB, hmul, hholds.log?_of_x_pow hw hp⟩

/-- In the narrowest field, where products have a table of their own: the largest exponent of
64 bits and a product whose logarithm is a sum. -/
theorem logarithm_laws_w8 :
    ∃ f : BinaryField, TableSet.build (Modulus.ofWidth .w8) = .ok f.tables ∧
      (∃ v, f.tables.antilog? 0xFFFFFFFFFFFFFFFF = .ok (some v) ∧
        f.tables.log? v = .ok (some 0) ∧ f.pow 2 0xFFFFFFFFFFFFFFFF = .ok v) ∧
      ∃ i j p, f.tables.log? 0x8E = .ok (some i) ∧ f.tables.log? 0xFF = .ok (some j) ∧
        f.mul 0x8E 0xFF = .ok p ∧ f.tables.log? p = .ok (some ((i + j) % 255)) := by
  obtain ⟨t, hbuild, _⟩ := TableSet.build_of_admissible (Modulus.admissible_ofWidth .w8)
  obtain ⟨_, _, hpowers, hproducts⟩ := logarithm_laws (f := ⟨⟨0, t⟩⟩) hbuild (Or.inl rfl)
  obtain ⟨v, _, _, hantilog, hlog, hpow⟩ := hpowers 0xFFFFFFFFFFFFFFFF
  exact ⟨⟨⟨0, t⟩⟩, hbuild, ⟨v, hantilog, hlog, hpow⟩,
    hproducts 0x8E 0xFF (by decide) (by decide) (by decide) (by decide)⟩

end BinaryField

end ErasureField
