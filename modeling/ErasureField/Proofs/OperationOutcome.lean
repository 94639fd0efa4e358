import ErasureField.Proofs.TableArithmetic

/-!
How the operations of a field end, for operands that may be no elements. Each of them
checks its operands and then its divisor and so is refused for the first of these that
will not do; when nothing is wrong it has a value, and the value is an element. No table
is read past its end on the way, and no sum, difference or product of logarithms leaves
the word that it is made in, which has 32 bits for sums and differences and 64 for the
product with an exponent.
-/

namespace ErasureField

/-- Why an operation of a width has to be refused: its first operand that is no element,
or else a divisor that is zero. -/
def Width.cause? (w : Width) (operands divisors : List UInt32) : Option Cause :=
  match operands.find? fun a => 2 ^ w.bits - 1 < a.toNat with
  | some a => some (.invalidElement a.toNat w)
  | none => if 0 ∈ divisors then some .divisionByZero else none

/-- An operation is refused under its name if there is a cause, and gives an element if
there is none. -/
def Outcome.EndsBy (outcome : Outcome UInt32) (w : Width) (operation : String) :
    Option Cause → Prop
  | some cause => outcome = .refuse operation cause
  | none => ∃ v, outcome = .ok v ∧ v.toNat ≤ 2 ^ w.bits - 1

section Checks

variable {w : Width} {operation : String} {operands divisors : List UInt32} {a : UInt32}
  {outcome : Outcome UInt32}

theorem Width.cause?_cons_of_lt (ha : 2 ^ w.bits - 1 < a.toNat) :
    w.cause? (a :: operands) divisors = some (.invalidElement a.toNat w) := by
  simp only [cause?, List.find?_cons, decide_eq_true ha]

theorem Width.cause?_cons_of_le (ha : a.toNat ≤ 2 ^ w.bits - 1) :
    w.cause? (a :: operands) divisors = w.cause? operands divisors := by
  simp only [cause?, List.find?_cons, decide_eq_false (Nat.not_lt_of_le ha)]

theorem Width.cause?_nil :
    w.cause? [] divisors = if 0 ∈ divisors then some .divisionByZero else none := rfl

/-- Checks operands and then divisors, in the order in which they stand, before an
outcome. -/
def Check.before (operation : String) (w : Width) (operands divisors : List UInt32)
    (outcome : Outcome UInt32) : Outcome UInt32 :=
  operands.foldr (fun a rest => do element operation a w; rest) <|
    divisors.foldr (fun b rest => do nonzero operation b; rest) outcome

/-- The checks refuse for the cause there is, and an outcome that is an element of checked
operands comes through. -/
theorem Check.before_endsBy (h : (∀ a ∈ operands, a.toNat ≤ 2 ^ w.bits - 1) →
      (∀ b ∈ divisors, b ≠ 0) → outcome.EndsBy w operation none) :
    (before operation w operands divisors outcome).EndsBy w operation
      (w.cause? operands divisors) := by
  induction operands with
  | nil =>
    induction divisors with
    | nil => exact h (by simp) (by simp)
    | cons b rest ih =>
      by_cases hb : b = 0
      · subst hb
        rfl
      · have hrest := ih fun hoperands hdivisors =>
          h hoperands (List.forall_mem_cons.mpr ⟨hb, hdivisors⟩)
        have hcause : w.cause? [] (b :: rest) = w.cause? [] rest := by
          simp [Width.cause?_nil, Ne.symm hb]
        rw [hcause, before, List.foldr_nil, List.foldr_cons, nonzero_ok hb]
        exact hrest
  | cons a rest ih =>
    rcases Nat.lt_or_ge (2 ^ w.bits - 1) a.toNat with hforeign | ha
    · rw [Width.cause?_cons_of_lt hforeign, before, List.foldr_cons,
        element_refused (by rwa [Width.order_eq])]
      rfl
    · have hrest := ih fun hoperands hdivisors =>
        h (List.forall_mem_cons.mpr ⟨ha, hoperands⟩) hdivisors
      rw [Width.cause?_cons_of_le ha, before, List.foldr_cons,
        element_ok (by rwa [Width.order_eq])]
      exact hrest

end Checks

namespace Logarithms

variable {T : Type} [StoredWord T] {m : Modulus} {t : Logarithms T} {a b : UInt32}

structure InWords (t : Logarithms T) (a b : UInt32) (e i j : Nat) : Prop where
  left : a.toNat < t.log.size ∧ t.logOf a = .ok i
  right : b.toNat < t.log.size ∧ t.logOf b = .ok j
  order : 0 < t.order
  mul : t.mul a b = t.powerOf (i + j) ∧ i + j < t.antilog.size ∧ i + j < 2 ^ 32
  div : t.div a b = t.powerOf (i + t.order - j) ∧ i + t.order - j < t.antilog.size ∧
    i + t.order < 2 ^ 32 ∧ j ≤ i + t.order
  inv : t.inv a = t.powerOf (t.order - i) ∧ t.order - i < t.antilog.size ∧ i ≤ t.order
  pow : (e ≠ 0 → t.pow a e = t.powerOf (i * (e % t.order) % t.order)) ∧
    i * (e % t.order) % t.order < t.antilog.size ∧ i * (e % t.order) < 2 ^ 64

theorem lt_size_of_logOf {i : Nat} (h : t.logOf a = .ok i) : a.toNat < t.log.size := by
  by_contra hge
  rw [logOf, Outcome.entry, Array.getElem?_eq_none (by omega)] at h
  cases h

theorem lt_size_of_powerOf {i : Nat} {v : UInt32} (h : t.powerOf i = .ok v) :
    i < t.antilog.size := by
  by_contra hge
  rw [powerOf, Outcome.entry, Array.getElem?_eq_none (by omega)] at h
  cases h

/-- Logarithms are below the order, and twice the order is a number of 32 bits in the widths
that have logarithms. -/
theorem Tabulates.inWords (h : t.Tabulates m) (horder : m.width.order < 2 ^ 16)
    (ha : a.toNat < 2 ^ m.width.bits) (hb : b.toNat < 2 ^ m.width.bits) (ha0 : a ≠ 0)
    (hb0 : b ≠ 0) (e : Nat) : ∃ i j, t.InWords a b e i j := by
  obtain ⟨i, hi, hlog, _⟩ := h.logOf a ha ha0
  obtain ⟨j, hj, hlog', _⟩ := h.logOf b hb hb0
  have hsize (k : Nat) (hk : k < 2 * m.width.order) : k < t.antilog.size := by
    obtain ⟨v, hpower, _⟩ := h.powerOf k hk
    exact lt_size_of_powerOf hpower
  have hpos := m.width.order_pos
  have hremainder := Nat.mod_lt e hpos
  refine ⟨i, j, ?_⟩
  constructor
  · exact ⟨lt_size_of_logOf hlog, hlog⟩
  · exact ⟨lt_size_of_logOf hlog', hlog'⟩
  · rwa [h.order_eq]
  · refine ⟨by simp [mul, ha0, hb0, hlog, hlog'], hsize _ (by omega), by omega⟩
  · rw [h.order_eq]
    refine ⟨by simp [div, ha0, hlog, hlog', h.order_eq], hsize _ (by omega), by omega, by omega⟩
  · rw [h.order_eq]
    exact ⟨by simp [inv, hlog, h.order_eq], hsize _ (by omega), hi.le⟩
  · rw [h.order_eq]
    have hproduct : i * (e % m.width.order) < 2 ^ 16 * 2 ^ 16 :=
      Nat.mul_lt_mul'' (by omega) (by omega)
    have hreduced := Nat.mod_lt (i * (e % m.width.order)) hpos
    refine ⟨?_, hsize _ (by omega), by omega⟩
    intro he
    simp [pow, he, ha0, hlog, h.order_eq]

end Logarithms

/-- The places of table entries and the numbers on the way to them, for two nonzero elements
and an exponent. -/
def Layout.InWords (layout : Layout) (a b : UInt32) (e : Nat) : Prop :=
  match layout with
  | .gf8 logs _ => (∃ i j, logs.InWords a b e i j) ∧
      byteValues * a.toNat + b.toNat < ByteProducts.entryCount
  | .gf16 logs => ∃ i j, logs.InWords a b e i j
  | .gf32 _ => ∀ i j : Fin 4, (i.val + j.val) * PartialProducts.entryCount +
      (byteValues * (byteOf a i).toNat + (byteOf b j).toNat) <
        PartialProducts.tableCount * PartialProducts.entryCount

theorem Layout.Holds.inWords {m : Modulus} {layout : Layout} (h : layout.Holds m)
    {a b : UInt32} (ha : a.toNat < 2 ^ m.width.bits) (hb : b.toNat < 2 ^ m.width.bits)
    (ha0 : a ≠ 0) (hb0 : b ≠ 0) (e : Nat) : layout.InWords a b e := by
  cases h with
  | gf8 hlogs _ =>
    have habyte : a.toNat < 256 := ha
    have hbbyte : b.toNat < 256 := hb
    have horder : Width.w8.order < 2 ^ 16 := by decide
    refine ⟨hlogs.inWords horder ha hb ha0 hb0 e, ?_⟩
    simp only [byteValues, ByteProducts.entryCount]
    omega
  | gf16 hlogs =>
    have horder : Width.w16.order < 2 ^ 16 := by decide
    exact hlogs.inWords horder ha hb ha0 hb0 e
  | gf32 p =>
    intro i j
    have habyte := (byteOf a i).toNat_lt
    have hbbyte := (byteOf b j).toNat_lt
    have hi := i.isLt
    have hj := j.isLt
    simp only [byteValues, PartialProducts.entryCount, PartialProducts.tableCount]
    omega

namespace BinaryField

variable {f : BinaryField} {m : Modulus}

/-- An operation that gives the element of some residue, once its operands are elements and
its divisors are not zero, ends as it should for all others too. -/
theorem before_endsBy_of_gives (h : f.tables.Holds m) {operation : String}
    {operands divisors : List UInt32} {outcome : Outcome UInt32}
    (hgives : (∀ v ∈ operands, m.Represents v.toNat (m.residue v.toNat)) →
      (∀ v ∈ divisors, v ≠ 0) → ∃ r, m.Gives outcome r) :
    (Check.before operation f.width operands divisors outcome).EndsBy m.width operation
      (m.width.cause? operands divisors) := by
  have hwidth : f.width = m.width := h.width_eq
  rw [hwidth]
  apply Check.before_endsBy
  intro helements hdivisors
  have hrepresents : ∀ v ∈ operands, m.Represents v.toNat (m.residue v.toNat) := by
    intro v hv
    exact m.represents_of_le_order ((helements v hv).trans_eq m.width.order_eq.symm)
  obtain ⟨r, v, hvalue, hv⟩ := hgives hrepresents hdivisors
  refine ⟨v, hvalue, ?_⟩
  rw [← Width.order_eq]
  exact m.width.lt_two_pow_iff.mp hv.lt

/-- Every operation of a field ends, whatever its operands. It is refused for its first
operand that is no element, or else for a zero divisor; if there is neither, it gives an
element. No table is read past its end on the way and no number leaves its word. -/
theorem operations_end (h : TableSet.build m = .ok f.tables) (a b : UInt32) (e : Nat) :
    (f.add a b).EndsBy m.width "add" (m.width.cause? [a, b] []) ∧
    (f.mul a b).EndsBy m.width "multiply" (m.width.cause? [a, b] []) ∧
    (f.div a b).EndsBy m.width "divide" (m.width.cause? [a, b] [b]) ∧
    (f.inv a).EndsBy m.width "inverse" (m.width.cause? [a] [a]) ∧
    (f.pow a e).EndsBy m.width "pow" (m.width.cause? [a] []) ∧
    (a.toNat ≤ 2 ^ m.width.bits - 1 → b.toNat ≤ 2 ^ m.width.bits - 1 → a ≠ 0 → b ≠ 0 →
      f.tables.layout.InWords a b e) := by
  have hholds := TableSet.holds_of_build h
  have hinverse {v : UInt32} (hv : m.Represents v.toNat (m.residue v.toNat)) (hne : v ≠ 0) :
      ∃ i, m.residue v.toNat * i = 1 :=
    hholds.admissible.exists_mul_eq_one (hv.ne_zero_iff.mp hne)
  refine ⟨?_, ?_, ?_, ?_, ?_, ?_⟩
  · show (Check.before "add" f.width [a, b] [] (.ok (a ^^^ b))).EndsBy _ _ _
    apply before_endsBy_of_gives hholds
    intro ha _
    exact ⟨_, Modulus.gives_ok ((ha a (by simp)).add (ha b (by simp)))⟩
  · show (Check.before "multiply" f.width [a, b] [] (f.tables.mul a b)).EndsBy _ _ _
    apply before_endsBy_of_gives hholds
    intro ha _
    exact ⟨_, hholds.gives_mul (ha a (by simp)) (ha b (by simp))⟩
  · show (Check.before "divide" f.width [a, b] [b] (f.tables.div a b)).EndsBy _ _ _
    apply before_endsBy_of_gives hholds
    intro ha hne
    obtain ⟨i, hi⟩ := hinverse (ha b (by simp)) (hne b (by simp))
    exact ⟨_, hholds.gives_div (ha a (by simp)) (ha b (by simp)) hi⟩
  · show (Check.before "inverse" f.width [a] [a] (f.tables.inv a)).EndsBy _ _ _
    apply before_endsBy_of_gives hholds
    intro ha hne
    obtain ⟨i, hi⟩ := hinverse (ha a (by simp)) (hne a (by simp))
    exact ⟨_, hholds.gives_inv (ha a (by simp)) hi⟩
  · show (Check.before "pow" f.width [a] [] (f.tables.pow a e)).EndsBy _ _ _
    apply before_endsBy_of_gives hholds
    intro ha _
    exact ⟨_, hholds.gives_pow (ha a (by simp)) e⟩
  · intro ha hb ha0 hb0
    rw [← Width.order_eq] at ha hb
    exact hholds.layout.inWords (m.represents_of_le_order ha).lt (m.represents_of_le_order hb).lt
      ha0 hb0 e

/-- In the narrowest field: a division with two operands that are no elements, one by zero,
and one whose logarithms have a negative difference. -/
theorem operations_end_w8 :
    ∃ f : BinaryField, TableSet.build (Modulus.ofWidth .w8) = .ok f.tables ∧
      f.div 0x1FF 0x100 = .refuse "divide" (.invalidElement 0x1FF .w8) ∧
      f.div 7 0 = .refuse "divide" .divisionByZero ∧
      (∃ v, f.div 1 0x8E = .ok v ∧ v.toNat ≤ 255) ∧
      f.tables.layout.InWords 1 0x8E 3 := by
  obtain ⟨t, hbuild, _⟩ := TableSet.build_of_admissible (Modulus.admissible_ofWidth .w8)
  refine ⟨⟨⟨0, t⟩⟩, hbuild, ?_, ?_, ?_, ?_⟩
  · exact (operations_end (f := ⟨⟨0, t⟩⟩) hbuild 0x1FF 0x100 0).2.2.1
  · exact (operations_end (f := ⟨⟨0, t⟩⟩) hbuild 7 0 0).2.2.1
  · exact (operations_end (f := ⟨⟨0, t⟩⟩) hbuild 1 0x8E 0).2.2.1
  · exact (operations_end (f := ⟨⟨0, t⟩⟩) hbuild 1 0x8E 3).2.2.2.2.2 (by decide) (by decide)
      (by decide) (by decide)

end BinaryField

end ErasureField
