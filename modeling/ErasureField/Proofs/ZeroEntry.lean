import ErasureField.Proofs.TableSet
import ErasureField.Region.Multiple

/-!
The entry of zero among the logarithms. It is no logarithm, and nothing that a field answers
depends on it: every operation sets zero apart before it looks a logarithm up. Two sets of
tables that differ in this entry alone therefore give the same answers. This goes from look-ups
of logarithms to products, quotients and powers, from products to the tables for one constant,
and from these to regions; the products of a field of width 8 are the same because they were
made from products by logarithms.
-/

namespace ErasureField

namespace Logarithms

variable {T : Type} [StoredWord T] {t u : Logarithms T} {a b : UInt32}

structure AgreeOffZero (t u : Logarithms T) : Prop where
  order : u.order = t.order
  antilog : u.antilog = t.antilog
  log : ∀ a ≠ 0, u.log[a]? = t.log[a]?

namespace AgreeOffZero

theorem powerOf (h : t.AgreeOffZero u) (i : Nat) : u.powerOf i = t.powerOf i := by
  rw [Logarithms.powerOf, Logarithms.powerOf, h.antilog]

theorem logOf (h : t.AgreeOffZero u) (ha : a ≠ 0) : u.logOf a = t.logOf a := by
  have hne : a.toNat ≠ 0 := fun hzero => ha (UInt32.toNat_inj.mp hzero)
  rw [Logarithms.logOf, Logarithms.logOf, Outcome.entry, Outcome.entry, h.log _ hne]

theorem mul (h : t.AgreeOffZero u) (a b : UInt32) : u.mul a b = t.mul a b :=
  mul_congr h.powerOf h.logOf h.logOf

theorem div (h : t.AgreeOffZero u) (a : UInt32) (hb : b ≠ 0) : u.div a b = t.div a b :=
  div_congr h.order h.powerOf h.logOf (h.logOf hb)

theorem inv (h : t.AgreeOffZero u) (ha : a ≠ 0) : u.inv a = t.inv a :=
  inv_congr h.order h.powerOf (h.logOf ha)

theorem pow (h : t.AgreeOffZero u) (a : UInt32) (e : Nat) : u.pow a e = t.pow a e :=
  pow_congr h.order h.powerOf h.logOf e

end AgreeOffZero

def withZeroEntry (t : Logarithms T) (word : UInt32) : Logarithms T :=
  { t with log := t.log.setIfInBounds 0 (StoredWord.store word) }

theorem agreeOffZero_withZeroEntry (t : Logarithms T) (word : UInt32) :
    t.AgreeOffZero (t.withZeroEntry word) where
  order := rfl
  antilog := rfl
  log _ ha := Array.getElem?_setIfInBounds_ne ha.symm

/-- What stands for zero among the logarithms. -/
def entryOfZero? (t : Logarithms T) : Option Nat :=
  t.log[0]?.map fun entry => (StoredWord.load entry).toNat

/-- Built tables have the order there, which is the logarithm of nothing. -/
theorem entryOfZero?_of_build {m : Modulus} (h : m.Admissible) (hbuild : build T m = .ok t) :
    t.entryOfZero? = some (m.width.order % StoredWord.values T) := by
  obtain ⟨walk, hafter, hok⟩ := build_eq_ok (T := T) h.degree h.orderOf_x
  obtain rfl := Except.ok.inj (hbuild.symm.trans hok)
  have hentry := hafter.log_rest 0 (Nat.zero_le _) fun i _ hzero => by
    have hpower := h.degree.represents_xPower i
    rw [hzero] at hpower
    exact h.x_pow_ne_zero i (hpower.residue_eq.symm.trans m.residue_zero)
  rw [entryOfZero?, hentry, Option.map_some, StoredWord.toNat_load_store,
    UInt32.toNat_ofNat_of_lt' m.width.order_lt]

theorem entryOfZero?_withZeroEntry {entry : Nat} (h : t.entryOfZero? = some entry) (word : UInt32) :
    (t.withZeroEntry word).entryOfZero? = some (word.toNat % StoredWord.values T) := by
  obtain ⟨stored, hstored, _⟩ := Option.map_eq_some_iff.mp h
  have hsize : 0 < t.log.size := (Array.getElem?_eq_some_iff.mp hstored).1
  rw [entryOfZero?, withZeroEntry, Array.getElem?_setIfInBounds_self_of_lt hsize, Option.map_some,
    StoredWord.toNat_load_store]

end Logarithms

/-- Products of bytes are filled from products by logarithms. -/
theorem ByteProducts.build_congr {t u : Logarithms UInt8} (h : t.AgreeOffZero u) :
    build u = build t := by
  simp only [build, h.mul]

namespace TableSet

inductive AgreeOffZero : TableSet → TableSet → Prop
  | gf8 {p : UInt64} {t u : Logarithms UInt8} (h : t.AgreeOffZero u) (products : ByteProducts) :
      AgreeOffZero ⟨p, .gf8 t products⟩ ⟨p, .gf8 u products⟩
  | gf16 {p : UInt64} {t u : Logarithms UInt16} (h : t.AgreeOffZero u) :
      AgreeOffZero ⟨p, .gf16 t⟩ ⟨p, .gf16 u⟩

namespace AgreeOffZero

variable {t u : TableSet} {a b : UInt32}

theorem width (h : t.AgreeOffZero u) : u.width = t.width := by
  cases h <;> rfl

theorem mul (h : t.AgreeOffZero u) (a b : UInt32) : u.mul a b = t.mul a b := by
  cases h with
  | gf8 _ products => rfl
  | gf16 hlogs => exact hlogs.mul a b

theorem div (h : t.AgreeOffZero u) (a : UInt32) (hb : b ≠ 0) : u.div a b = t.div a b := by
  cases h with
  | gf8 hlogs _ => exact hlogs.div a hb
  | gf16 hlogs => exact hlogs.div a hb

theorem inv (h : t.AgreeOffZero u) (ha : a ≠ 0) : u.inv a = t.inv a := by
  cases h with
  | gf8 hlogs _ => exact hlogs.inv ha
  | gf16 hlogs => exact hlogs.inv ha

theorem pow (h : t.AgreeOffZero u) (a : UInt32) (e : Nat) : u.pow a e = t.pow a e := by
  cases h with
  | gf8 hlogs _ => exact hlogs.pow a e
  | gf16 hlogs => exact hlogs.pow a e

theorem log? (h : t.AgreeOffZero u) (a : UInt32) : u.log? a = t.log? a := by
  by_cases hoff : a = 0 ∨ t.width.contains a.toNat = false
  · rw [TableSet.log?, TableSet.log?, h.width, if_pos hoff, if_pos hoff]
  · have hne : a ≠ 0 := fun hzero => hoff (Or.inl hzero)
    rw [TableSet.log?, TableSet.log?, h.width, if_neg hoff, if_neg hoff]
    cases h with
    | gf8 hlogs _ => simp only [hlogs.logOf hne]
    | gf16 hlogs => simp only [hlogs.logOf hne]

theorem antilog? (h : t.AgreeOffZero u) (i : Nat) : u.antilog? i = t.antilog? i := by
  cases h with
  | gf8 hlogs _ => simp only [TableSet.antilog?, hlogs.powerOf]; rfl
  | gf16 hlogs => simp only [TableSet.antilog?, hlogs.powerOf]; rfl

/-- The tables for a constant are made of its products. -/
theorem ofConstant (h : t.AgreeOffZero u) (constant : UInt32) :
    Multiplier.ofConstant u constant = Multiplier.ofConstant t constant := by
  have hlane : Multiplier.lane u constant = Multiplier.lane t constant := by
    funext place
    simp only [Multiplier.lane, Multiplier.basis, h.mul]
  cases h with
  | gf8 _ products => rfl
  | gf16 _ => simp only [Multiplier.ofConstant, hlane]

theorem multiply (h : t.AgreeOffZero u) (src : Bytes) (constant : UInt32) (len : Nat)
    (accumulate : Bool) :
    Region.multiply u src constant len accumulate =
      Region.multiply t src constant len accumulate := by
  simp only [Region.multiply, Region.multiple, h.width, h.ofConstant]

theorem multiplyInPlace (h : t.AgreeOffZero u) (constant : UInt32) (len : Nat)
    (accumulate : Bool) :
    Region.multiplyInPlace u constant len accumulate =
      Region.multiplyInPlace t constant len accumulate := by
  simp only [Region.multiplyInPlace, Region.multipleInPlace, h.width, h.ofConstant]

end AgreeOffZero

end TableSet

def Layout.entryOfZero? : Layout → Option Nat
  | .gf8 logs _ => logs.entryOfZero?
  | .gf16 logs => logs.entryOfZero?
  | .gf32 _ => none

/-- The same tables with a word as the entry of zero among the logarithms, and products made
again from these where there are any. -/
def TableSet.withZeroEntry (t : TableSet) (word : UInt32) : Outcome TableSet :=
  match t.layout with
  | .gf8 logs _ => do
    let logs := logs.withZeroEntry word
    return ⟨t.polynomial, .gf8 logs (← ByteProducts.build logs)⟩
  | .gf16 logs => .ok ⟨t.polynomial, .gf16 (logs.withZeroEntry word)⟩
  | .gf32 _ => .ok t

/-- The entry of zero of built tables can be replaced by every word, and the tables then agree
with the built ones off zero. -/
theorem TableSet.exists_withZeroEntry {m : Modulus} {t : TableSet} (h : TableSet.build m = .ok t)
    (hw : m.width = .w8 ∨ m.width = .w16) (word : UInt32) :
    t.layout.entryOfZero? = some (2 ^ m.width.bits - 1) ∧
      ∃ u, t.withZeroEntry word = .ok u ∧ t.AgreeOffZero u ∧
        u.layout.entryOfZero? = some (word.toNat % 2 ^ m.width.bits) := by
  have hadmissible := (holds_of_build h).admissible
  obtain ⟨w, p⟩ := m
  obtain ⟨layout, hlayout, rfl⟩ := exists_of_build h
  rcases hw with rfl | rfl
  · obtain ⟨logs, products, hlogs, hproducts, rfl⟩ := Layout.exists_of_build_w8 hlayout
    have hentry := Logarithms.entryOfZero?_of_build hadmissible hlogs
    have hagree := logs.agreeOffZero_withZeroEntry word
    have hentry' := Logarithms.entryOfZero?_withZeroEntry hentry word
    refine ⟨hentry, _, ?_, .gf8 hagree products, hentry'⟩
    simp only [withZeroEntry, ByteProducts.build_congr hagree, hproducts, Outcome.ok_bind,
      Outcome.pure_eq_ok]
  · obtain ⟨logs, hlogs, rfl⟩ := Layout.exists_of_build_w16 hlayout
    have hentry := Logarithms.entryOfZero?_of_build hadmissible hlogs
    have hentry' := Logarithms.entryOfZero?_withZeroEntry hentry word
    exact ⟨hentry, _, rfl, .gf16 (logs.agreeOffZero_withZeroEntry word), hentry'⟩

namespace BinaryField

section Congr

variable {f g : BinaryField}

/-- A divisor that is zero is refused before it is looked up. -/
theorem div_congr (h : f.tables.AgreeOffZero g.tables) (a b : UInt32) : g.div a b = f.div a b := by
  have hwidth : g.width = f.width := h.width
  by_cases hb : b = 0
  · simp only [div, hwidth, Check.nonzero, if_pos hb]
    rfl
  · simp only [div, hwidth, h.div a hb]

theorem inv_congr (h : f.tables.AgreeOffZero g.tables) (a : UInt32) : g.inv a = f.inv a := by
  have hwidth : g.width = f.width := h.width
  by_cases ha : a = 0
  · simp only [inv, hwidth, Check.nonzero, if_pos ha]
    rfl
  · simp only [inv, hwidth, h.inv ha]

end Congr

/-- In a field of width 8 or 16 the logarithms have the order for zero, and no answer depends on
it. Any word can be put in its place, and products can be made again from the logarithms then;
a field with the new tables answers every call as before, for all arguments, elements or
not. -/
theorem zero_entry_unread {f : BinaryField} {m : Modulus} (h : TableSet.build m = .ok f.tables)
    (hw : m.width = .w8 ∨ m.width = .w16) (word : UInt32) :
    f.tables.layout.entryOfZero? = some (2 ^ m.width.bits - 1) ∧
    ∃ g : BinaryField, f.tables.withZeroEntry word = .ok g.tables ∧
      g.tables.layout.entryOfZero? = some (word.toNat % 2 ^ m.width.bits) ∧
      (∀ a b, g.add a b = f.add a b) ∧
      (∀ a b, g.mul a b = f.mul a b) ∧
      (∀ a b, g.div a b = f.div a b) ∧
      (∀ a, g.inv a = f.inv a) ∧
      (∀ a e, g.pow a e = f.pow a e) ∧
      (∀ src constant len accumulate dst,
        (g.multiplyRegion src constant len accumulate).on dst =
          (f.multiplyRegion src constant len accumulate).on dst) ∧
      (∀ constant len accumulate buf,
        (g.multiplyRegionInPlace constant len accumulate).on buf =
          (f.multiplyRegionInPlace constant len accumulate).on buf) ∧
      (∀ a, g.tables.log? a = f.tables.log? a) ∧
      ∀ i, g.tables.antilog? i = f.tables.antilog? i := by
  obtain ⟨hentry, t, hreplaced, hagree, hentry'⟩ := TableSet.exists_withZeroEntry h hw word
  let g : BinaryField := ⟨⟨f.shared.position, t⟩⟩
  have hwidth : g.width = f.width := hagree.width
  refine ⟨hentry, g, hreplaced, hentry', ?_, ?_, div_congr hagree, inv_congr hagree, ?_, ?_, ?_,
    hagree.log?, hagree.antilog?⟩
  · intro a b
    simp only [add, hwidth]
  · intro a b
    have hmul : g.tables.mul a b = f.tables.mul a b := hagree.mul a b
    simp only [mul, hwidth, hmul]
  · intro a e
    have hpow : g.tables.pow a e = f.tables.pow a e := hagree.pow a e
    simp only [pow, hwidth, hpow]
  · intro src constant len accumulate dst
    have hmultiply := hagree.multiply src constant len accumulate
    exact congrArg (fun step => step.on dst) hmultiply
  · intro constant len accumulate buf
    have hmultiply := hagree.multiplyInPlace constant len accumulate
    exact congrArg (fun step => step.on buf) hmultiply

/-- Zero given the logarithm of one in the narrowest field, where products are made again: a
product with zero, the inverse of zero and a region of zeros would otherwise be changed. -/
theorem zero_entry_unread_w8 :
    ∃ f g : BinaryField, TableSet.build (Modulus.ofWidth .w8) = .ok f.tables ∧
      f.tables.layout.entryOfZero? = some 0xFF ∧
      f.tables.withZeroEntry 0 = .ok g.tables ∧ g.tables.layout.entryOfZero? = some 0 ∧
      g.mul 0 3 = f.mul 0 3 ∧ g.inv 0 = f.inv 0 ∧
      (g.multiplyRegion [0, 0, 0] 3 3 true).on [1, 2, 3] =
        (f.multiplyRegion [0, 0, 0] 3 3 true).on [1, 2, 3] := by
  obtain ⟨t, hbuild, _⟩ := TableSet.build_of_admissible (Modulus.admissible_ofWidth .w8)
  obtain ⟨hentry, g, hreplaced, hentry', _, hmul, _, hinv, _, hregion, _⟩ :=
    zero_entry_unread (f := ⟨⟨0, t⟩⟩) hbuild (Or.inl rfl) 0
  exact ⟨⟨⟨0, t⟩⟩, g, hbuild, hentry, hreplaced, hentry', hmul 0 3, hinv 0,
    hregion [0, 0, 0] 3 3 true [1, 2, 3]⟩

end BinaryField

end ErasureField
