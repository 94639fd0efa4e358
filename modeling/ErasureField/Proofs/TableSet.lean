import ErasureField.Proofs.Logarithm
import ErasureField.Proofs.PartialProduct
import ErasureField.TableSet

/-!
Which polynomials get tables, and what the tables are good for. Tables are built for
exactly the admissible polynomials; any other is refused, because of its shape, its
walk or its order test, and none makes a table be read past its end. The product,
quotient and inverse that the tables of a width give, by whichever of the three
layouts, are those of the residues.
-/

namespace ErasureField

open Polynomial

namespace ByteProducts

def Tabulates (t : ByteProducts) (m : Modulus) : Prop :=
  ∀ a b : UInt8, m.Represents (t.mul a b).toNat (m.residue a.toNat * m.residue b.toNat)

/-- The table is filled from logarithms without reading past their end. -/
theorem build_of_tabulates {m : Modulus} (hw : m.width = .w8) {logs : Logarithms UInt8}
    (h : logs.Tabulates m) : ∃ t, build logs = .ok t ∧ t.Tabulates m := by
  have hbits : m.width.bits = 8 := by
    rw [hw]
    rfl
  have hbyte (a : Nat) (ha : a < 256) : m.Represents (UInt32.ofNat a).toNat (m.residue a) := by
    have hword : (UInt32.ofNat a).toNat = a := by
      rw [UInt32.toNat_ofNat']
      omega
    rw [hword]
    exact m.represents_residue (by rw [hbits]; exact ha)
  have hentry (a b : Fin 256) := h.gives_mul (hbyte a a.isLt) (hbyte b b.isLt)
  choose product hproduct hrepresents using hentry
  have hrows : Vector.ofFnM (fun a : Fin 256 => Vector.ofFnM fun b : Fin 256 =>
        (logs.mul (UInt32.ofNat a) (UInt32.ofNat b) >>= fun v => pure v.toUInt8 :
          Outcome UInt8)) =
      (.ok (Vector.ofFn fun a => Vector.ofFn fun b => (product a b).toUInt8) :
        Outcome (ByteTable (ByteTable UInt8))) := by
    simp only [hproduct, Outcome.ok_bind, Vector.ofFnM_pure]
    rfl
  refine ⟨⟨_⟩, by rw [build, hrows]; rfl, ?_⟩
  intro a b
  have hvalue := hrepresents ⟨a.toNat, a.toNat_lt⟩ ⟨b.toNat, b.toNat_lt⟩
  have hlt := hvalue.lt
  rw [hbits] at hlt
  rw [mul, row, ByteTable.lookup_ofFn, ByteTable.lookup_ofFn, UInt32.toNat_toUInt8,
    Nat.mod_eq_of_lt hlt]
  exact hvalue

end ByteProducts

inductive Layout.Holds : Modulus → Layout → Prop
  | gf8 {p : UInt64} {logs : Logarithms UInt8} {products : ByteProducts}
      (hlogs : logs.Tabulates ⟨.w8, p⟩) (hproducts : products.Tabulates ⟨.w8, p⟩) :
      Layout.Holds ⟨.w8, p⟩ (.gf8 logs products)
  | gf16 {p : UInt64} {logs : Logarithms UInt16} (hlogs : logs.Tabulates ⟨.w16, p⟩) :
      Layout.Holds ⟨.w16, p⟩ (.gf16 logs)
  | gf32 (p : UInt64) : Layout.Holds ⟨.w32, p⟩ (.gf32 (PartialProducts.build p))

structure TableSet.Holds (t : TableSet) (m : Modulus) : Prop where
  admissible : m.Admissible
  polynomial : t.polynomial = m.polynomial
  layout : t.layout.Holds m

namespace Layout

variable {m : Modulus}

theorem build_of_admissible (h : m.Admissible) :
    ∃ layout, build m = .ok layout ∧ layout.Holds m := by
  obtain ⟨w, p⟩ := m
  cases w with
  | w8 =>
    have hroom : Width.w8.order < StoredWord.values UInt8 := by decide
    obtain ⟨logs, hlogs, htabulates⟩ := Logarithms.build_of_admissible (T := UInt8) h hroom
    obtain ⟨products, hproducts, hentries⟩ := ByteProducts.build_of_tabulates rfl htabulates
    refine ⟨.gf8 logs products, ?_, .gf8 htabulates hentries⟩
    simp only [build, hlogs, hproducts, Outcome.ok_bind]
    rfl
  | w16 =>
    have hroom : Width.w16.order < StoredWord.values UInt16 := by decide
    obtain ⟨logs, hlogs, htabulates⟩ := Logarithms.build_of_admissible (T := UInt16) h hroom
    refine ⟨.gf16 logs, ?_, .gf16 htabulates⟩
    simp only [build, hlogs, Outcome.ok_bind]
    rfl
  | w32 =>
    refine ⟨_, ?_, .gf32 p⟩
    simp only [build, h.degree.isPrimitive_iff.mpr h.orderOf_x, if_true]
    rfl

/-- A layout is refused where `x` does not have the order `2^w - 1`. -/
theorem build_misconfigured (h : m.HasDegree) (hne : orderOf m.x ≠ m.width.order) :
    ∃ operation why, build m = .misconfigured operation why := by
  obtain ⟨w, p⟩ := m
  cases w with
  | w8 =>
    obtain ⟨why, hrefused⟩ := Logarithms.build_misconfigured (T := UInt8) h hne
    refine ⟨"log table construction", why, ?_⟩
    simp only [build, hrefused]
    rfl
  | w16 =>
    obtain ⟨why, hrefused⟩ := Logarithms.build_misconfigured (T := UInt16) h hne
    refine ⟨"log table construction", why, ?_⟩
    simp only [build, hrefused]
    rfl
  | w32 =>
    have htest : ¬ Modulus.isPrimitive ⟨.w32, p⟩ = true := fun hpass =>
      hne (h.isPrimitive_iff.mp hpass)
    refine ⟨"split table construction", .notGenerating ⟨.w32, p⟩, ?_⟩
    simp only [build, htest]
    rfl

theorem exists_of_build_w8 {p : UInt64} {layout : Layout} (h : build ⟨.w8, p⟩ = .ok layout) :
    ∃ logs products, Logarithms.build UInt8 ⟨.w8, p⟩ = .ok logs ∧
      ByteProducts.build logs = .ok products ∧ layout = .gf8 logs products := by
  obtain ⟨logs, hlogs, hrest⟩ := Outcome.bind_eq_ok.mp h
  obtain ⟨products, hproducts, heq⟩ := Outcome.bind_eq_ok.mp hrest
  exact ⟨logs, products, hlogs, hproducts, (Except.ok.inj heq).symm⟩

theorem exists_of_build_w16 {p : UInt64} {layout : Layout} (h : build ⟨.w16, p⟩ = .ok layout) :
    ∃ logs, Logarithms.build UInt16 ⟨.w16, p⟩ = .ok logs ∧ layout = .gf16 logs := by
  obtain ⟨logs, hlogs, heq⟩ := Outcome.bind_eq_ok.mp h
  exact ⟨logs, hlogs, (Except.ok.inj heq).symm⟩

end Layout

namespace Modulus

variable {m : Modulus}

theorem checkShape_of_not_hasDegree (h : ¬ m.HasDegree) :
    m.checkShape = .misconfigured "field polynomial" (.wrongDegree m) := by
  unfold HasDegree at h
  simp [checkShape, h]

theorem HasDegree.checkShape_of_even (h : m.HasDegree) (heven : m.polynomial &&& 1 = 0) :
    m.checkShape = .misconfigured "field polynomial" (.divisibleByX m) := by
  unfold HasDegree at h
  simp [checkShape, h, heven]

theorem HasDegree.checkShape_of_odd (h : m.HasDegree) (hodd : m.polynomial &&& 1 ≠ 0) :
    m.checkShape = .ok () := by
  unfold HasDegree at h
  simp [checkShape, h, hodd]

theorem checkShape_eq_ok_iff :
    m.checkShape = .ok () ↔ m.HasDegree ∧ m.polynomial &&& 1 = 1 := by
  constructor
  · intro hshape
    by_cases h : m.HasDegree
    · rcases and_one_eq_zero_or_one m.polynomial with heven | hodd
      · rw [h.checkShape_of_even heven] at hshape
        cases hshape
      · exact ⟨h, hodd⟩
    · rw [checkShape_of_not_hasDegree h] at hshape
      cases hshape
  · rintro ⟨h, hodd⟩
    apply h.checkShape_of_odd
    rw [hodd]
    decide

end Modulus

namespace TableSet

variable {m : Modulus} {t : TableSet}

theorem build_of_admissible (h : m.Admissible) : ∃ t, build m = .ok t ∧ t.Holds m := by
  obtain ⟨layout, hbuild, hholds⟩ := Layout.build_of_admissible h
  refine ⟨⟨m.polynomial, layout⟩, ?_, h, rfl, hholds⟩
  rw [build, Modulus.checkShape_eq_ok_iff.mpr ⟨h.degree, h.odd⟩, Outcome.ok_bind, hbuild]
  rfl

/-- Built tables are the layout that was built, with the polynomial. -/
theorem exists_of_build (h : build m = .ok t) :
    ∃ layout, Layout.build m = .ok layout ∧ t = ⟨m.polynomial, layout⟩ := by
  obtain ⟨_, _, hrest⟩ := Outcome.bind_eq_ok.mp h
  obtain ⟨layout, hlayout, heq⟩ := Outcome.bind_eq_ok.mp hrest
  exact ⟨layout, hlayout, (Except.ok.inj heq).symm⟩

/-- Any other polynomial is refused as a description of a field. -/
theorem build_misconfigured (h : ¬ m.Admissible) :
    ∃ operation why, build m = .misconfigured operation why := by
  by_cases hdegree : m.HasDegree
  · by_cases heven : m.polynomial &&& 1 = 0
    · refine ⟨"field polynomial", .divisibleByX m, ?_⟩
      rw [build, hdegree.checkShape_of_even heven]
      rfl
    · have horder : orderOf m.x ≠ m.width.order := fun horder =>
        h (Modulus.admissible_iff.mpr ⟨hdegree, horder⟩)
      obtain ⟨operation, why, hrefused⟩ := Layout.build_misconfigured hdegree horder
      refine ⟨operation, why, ?_⟩
      rw [build, hdegree.checkShape_of_odd heven, Outcome.ok_bind, hrefused]
      rfl
  · refine ⟨"field polynomial", .wrongDegree m, ?_⟩
    rw [build, Modulus.checkShape_of_not_hasDegree hdegree]
    rfl

theorem Holds.modulus_eq (h : t.Holds m) : t.modulus = m := by
  obtain ⟨p, layout⟩ := t
  obtain ⟨_, hpolynomial, hlayout⟩ := h
  cases hlayout <;> exact congrArg (Modulus.mk _) hpolynomial

theorem Holds.width_eq (h : t.Holds m) : t.width = m.width :=
  congrArg Modulus.width h.modulus_eq

theorem holds_of_build (h : build m = .ok t) : t.Holds m := by
  by_cases hadmissible : m.Admissible
  · obtain ⟨built, hbuild, hholds⟩ := build_of_admissible hadmissible
    rw [h] at hbuild
    cases hbuild
    exact hholds
  · obtain ⟨operation, why, hrefused⟩ := build_misconfigured hadmissible
    rw [h] at hrefused
    cases hrefused

/-- Which polynomials have a field: those of the degree of the width, with a constant
term, modulo which the least power of `x` that is one has exponent `2^w - 1`. Any
other is refused as a description of a field, and an accepted one is irreducible. -/
theorem build_admits (m : Modulus) :
    ((∃ t, build m = .ok t) ↔
      m.polynomial >>> UInt64.ofNat m.width.bits = 1 ∧ m.polynomial &&& 1 = 1 ∧
        IsLeast {k | 1 ≤ k ∧ m.poly ∣ X ^ k - 1} (2 ^ m.width.bits - 1)) ∧
    ((∃ t, build m = .ok t ∧ t.modulus = m) ∨
      ∃ operation why, build m = .misconfigured operation why) ∧
    ((∃ t, build m = .ok t) → Irreducible m.poly) := by
  have hconditions : m.Admissible ↔
      m.polynomial >>> UInt64.ofNat m.width.bits = 1 ∧ m.polynomial &&& 1 = 1 ∧
        IsLeast {k | 1 ≤ k ∧ m.poly ∣ X ^ k - 1} (2 ^ m.width.bits - 1) := by
    rw [← Width.order_eq]
    constructor
    · intro h
      exact ⟨h.degree, h.odd, h.order⟩
    · rintro ⟨hdegree, hodd, horder⟩
      exact ⟨hdegree, hodd, horder⟩
  refine ⟨?_, ?_, ?_⟩
  · rw [← hconditions]
    constructor
    · rintro ⟨t, hbuild⟩
      exact (holds_of_build hbuild).admissible
    · intro h
      obtain ⟨t, hbuild, _⟩ := build_of_admissible h
      exact ⟨t, hbuild⟩
  · by_cases h : m.Admissible
    · obtain ⟨t, hbuild, hholds⟩ := build_of_admissible h
      exact Or.inl ⟨t, hbuild, hholds.modulus_eq⟩
    · exact Or.inr (build_misconfigured h)
  · rintro ⟨t, hbuild⟩
    exact (holds_of_build hbuild).admissible.irreducible

end TableSet

end ErasureField
