import ErasureField.Proofs.Multiplier

/-!
How the tables for one constant are filled, and what they do to a word. A table is filled
byte after byte, each entry from that of the byte without its lowest bit. Since sums over the
set bits are linear, this gives the sum for every byte, and since products are linear, the sum
is the product. The elements of a word are multiplied apart from each other, and as they are
all of the word, nothing else is in its product.
-/

namespace ErasureField

open Polynomial

/-- Taking one from a number clears its lowest set bit, and no bit above it. -/
theorem and_pred_xor_two_pow {n t : Nat} (hset : n.testBit t = true)
    (hclear : ∀ j < t, n.testBit j = false) : (n &&& (n - 1)) ^^^ 2 ^ t = n := by
  have hpow : 2 ^ t < 2 ^ (t + 1) := Nat.pow_lt_pow_right (by omega) (by omega)
  have hsplit : 2 ^ (t + 1) * (n >>> (t + 1)) + 2 ^ t = n := by
    apply Nat.eq_of_testBit_eq
    intro j
    rw [Nat.testBit_two_pow_mul_add _ hpow, Nat.testBit_two_pow]
    rcases Nat.lt_trichotomy j t with hlt | rfl | hgt
    · rw [if_pos (by omega), hclear j hlt, decide_eq_false (by omega)]
    · rw [if_pos (by omega), hset, decide_eq_true rfl]
    · rw [if_neg (by omega), Nat.testBit_shiftRight, Nat.add_sub_of_le (by omega)]
  have hpred : n - 1 = 2 ^ (t + 1) * (n >>> (t + 1)) + (2 ^ t - 1) := by
    have := Nat.two_pow_pos t
    omega
  apply Nat.eq_of_testBit_eq
  intro j
  rw [Nat.testBit_xor, Nat.testBit_and, hpred, Nat.testBit_two_pow_mul_add _ (by omega),
    Nat.testBit_two_pow, Nat.testBit_two_pow_sub_one, Nat.testBit_shiftRight]
  rcases Nat.lt_trichotomy j t with hlt | rfl | hgt
  · simp [hclear j hlt, hlt.ne']
  · simp [hset]
  · rw [if_neg (by omega), Nat.add_sub_of_le (by omega), decide_eq_false (by omega)]
    simp

/-- Tables are equal when all bytes have the same entry. -/
theorem ByteTable.ext {α : Type} {first second : ByteTable α}
    (h : ∀ b, first.lookup b = second.lookup b) : first = second := by
  apply Vector.ext
  intro i hi
  have hentry := h (UInt8.ofNat i)
  have hplace : (UInt8.ofNat i).toNat = i := UInt8.toNat_ofNat_of_lt' hi
  simp only [ByteTable.lookup, hplace] at hentry
  exact hentry

namespace Multiplier

section Fill

variable {entries : List UInt32} {table : ByteTable UInt32} {b : UInt8}

def lowestBit (b : UInt8) : Nat := b.toBitVec.ctz.toNat

def fillEntry (entries : List UInt32) (table : ByteTable UInt32) (b : UInt8) : ByteTable UInt32 :=
  Vector.set table b.toNat (table.lookup (b &&& (b - 1)) ^^^ entries.getD (lowestBit b) 0)
    b.toNat_lt

/-- Fills the entries of all bytes but zero, one byte after the other. -/
def fill (entries : List UInt32) : ByteTable UInt32 :=
  ((List.range' 1 255).map UInt8.ofNat).foldl (fillEntry entries) (Vector.replicate 256 0)

theorem testBit_lowestBit (hb : b ≠ 0) : b.toNat.testBit (lowestBit b) = true := by
  have hne : b.toBitVec ≠ 0#8 := fun h => hb (UInt8.eq_of_toBitVec_eq h)
  exact BitVec.getLsbD_true_ctz_of_ne_zero hne

theorem testBit_of_lt_lowestBit {j : Nat} (hj : j < lowestBit b) : b.toNat.testBit j = false :=
  BitVec.getLsbD_false_of_lt_ctz hj

theorem lowestBit_lt (hb : b ≠ 0) : lowestBit b < 8 := by
  by_contra hge
  have hle : 2 ^ 8 ≤ 2 ^ lowestBit b := Nat.pow_le_pow_right (by omega) (by omega)
  have hset := testBit_lowestBit hb
  rw [Nat.testBit_lt_two_pow (lt_of_lt_of_le b.toNat_lt hle)] at hset
  cases hset

theorem toNat_clearLowest (hb : b ≠ 0) : (b &&& (b - 1)).toNat = b.toNat &&& (b.toNat - 1) := by
  have hpos : 1 ≤ b.toNat := Nat.one_le_iff_ne_zero.mpr fun h => hb (UInt8.toNat_inj.mp h)
  have hle : (1 : UInt8) ≤ b := UInt8.le_iff_toNat_le.mpr hpos
  rw [UInt8.toNat_and, UInt8.toNat_sub_of_le _ _ hle, UInt8.toNat_one]

theorem clearLowest_lt (hb : b ≠ 0) : (b &&& (b - 1)).toNat < b.toNat := by
  have hpos : b.toNat ≠ 0 := fun h => hb (UInt8.toNat_inj.mp h)
  have hle : b.toNat &&& (b.toNat - 1) ≤ b.toNat - 1 := Nat.and_le_right
  rw [toNat_clearLowest hb]
  omega

/-- A byte is itself without its lowest bit, and that bit. -/
theorem clearLowest_xor (hb : b ≠ 0) :
    (b &&& (b - 1)) ^^^ (1 : UInt8) <<< UInt8.ofNat (lowestBit b) = b := by
  have hlt := lowestBit_lt hb
  have hbit : ((1 : UInt8) <<< UInt8.ofNat (lowestBit b)).toNat = 2 ^ lowestBit b := by
    have hplace : (UInt8.ofNat (lowestBit b)).toNat % 8 = lowestBit b := by
      rw [UInt8.toNat_ofNat_of_lt' (hlt.trans (by decide))]
      omega
    rw [UInt8.toNat_shiftLeft, hplace, UInt8.toNat_one, Nat.one_shiftLeft,
      Nat.mod_eq_of_lt (Nat.pow_lt_pow_right (by omega) hlt)]
  rw [← UInt8.toNat_inj, UInt8.toNat_xor, toNat_clearLowest hb, hbit]
  exact and_pred_xor_two_pow (testBit_lowestBit hb) fun j => testBit_of_lt_lowestBit

theorem combine_zero (entries : List UInt32) : combine entries 0 = 0 := by
  induction entries with
  | nil => rfl
  | cons entry rest ih => simp [combine, ih]

/-- Sums over the set bits are linear. -/
theorem combine_xor (entries : List UInt32) (a b : UInt8) :
    combine entries (a ^^^ b) = combine entries a ^^^ combine entries b := by
  induction entries generalizing a b with
  | nil => simp [combine]
  | cons entry rest ih =>
    have hfirst : (if (a ^^^ b) &&& 1 = 1 then entry else 0) =
        (if a &&& 1 = 1 then entry else 0) ^^^ (if b &&& 1 = 1 then entry else 0) := by
      simp only [and_one_eq_one_iff_testBit, UInt8.toNat_xor, Nat.testBit_xor]
      cases a.toNat.testBit 0 <;> cases b.toNat.testBit 0 <;> simp
    rw [combine, combine, combine, UInt8.shiftRight_xor, ih, hfirst]
    ac_rfl

/-- The sum over one bit is its entry. -/
theorem combine_bit (entries : List UInt32) {i : Nat} (hi : i < 8) :
    combine entries ((1 : UInt8) <<< UInt8.ofNat i) = entries.getD i 0 := by
  induction entries generalizing i with
  | nil => rfl
  | cons entry rest ih =>
    cases i with
    | zero =>
      show entry ^^^ combine rest 0 = entry
      rw [combine_zero, UInt32.xor_zero]
    | succ i =>
      have hlt : i < 7 := by omega
      have hlow : ¬ (1 : UInt8) <<< UInt8.ofNat (i + 1) &&& 1 = 1 := by
        interval_cases i <;> decide
      have hrest : (1 : UInt8) <<< UInt8.ofNat (i + 1) >>> 1 = 1 <<< UInt8.ofNat i := by
        interval_cases i <;> decide
      rw [combine, if_neg hlow, hrest, ih (by omega), UInt32.zero_xor, List.getD_cons_succ]

theorem combine_clearLowest (entries : List UInt32) (hb : b ≠ 0) :
    combine entries b = combine entries (b &&& (b - 1)) ^^^ entries.getD (lowestBit b) 0 := by
  rw [← combine_bit entries (lowestBit_lt hb), ← combine_xor, clearLowest_xor hb]

def FilledBelow (entries : List UInt32) (n : Nat) (table : ByteTable UInt32) : Prop :=
  ∀ b : UInt8, b.toNat < n → table.lookup b = combine entries b

/-- One byte more is filled. The byte without its lowest bit comes earlier, so that its entry is
there to be read. -/
theorem FilledBelow.step {n : Nat} (h : FilledBelow entries n table) (hpos : 0 < n)
    (hlt : n < 256) : FilledBelow entries (n + 1) (fillEntry entries table (UInt8.ofNat n)) := by
  have hn : (UInt8.ofNat n).toNat = n := UInt8.toNat_ofNat_of_lt' hlt
  have hne : UInt8.ofNat n ≠ 0 := by
    intro hzero
    rw [hzero] at hn
    exact hpos.ne hn
  intro b hb
  by_cases heq : b = UInt8.ofNat n
  · subst heq
    have hbelow := h _ (lt_of_lt_of_eq (clearLowest_lt hne) hn)
    rw [combine_clearLowest entries hne, ← hbelow]
    exact Vector.getElem_set_self _
  · have hplace : (UInt8.ofNat n).toNat ≠ b.toNat := fun hsame =>
      heq (UInt8.toNat_inj.mp hsame.symm)
    rw [← h b (by omega)]
    exact Vector.getElem_set_ne _ _ hplace

theorem filledBelow_run (entries : List UInt32) {k : Nat} (hk : k < 256) :
    FilledBelow entries (k + 1)
      (((List.range' 1 k).map UInt8.ofNat).foldl (fillEntry entries) (Vector.replicate 256 0)) := by
  induction k with
  | zero =>
    intro b hb
    obtain rfl : b = 0 := UInt8.toNat_inj.mp (by rw [UInt8.toNat_zero]; omega)
    rw [combine_zero]
    rfl
  | succ k ih =>
    have hstep := (ih (by omega)).step (by omega) hk
    rwa [List.range'_1_concat, List.map_append, List.foldl_append, Nat.add_comm 1 k]

theorem lookup_fill (entries : List UInt32) (b : UInt8) :
    (fill entries).lookup b = combine entries b := by
  have hfilled := filledBelow_run entries (by omega : 255 < 256)
  unfold fill
  exact hfilled b b.toNat_lt

/-- Filling from the lowest bits gives the table of the sums over the set bits. -/
theorem lane_eq_fill {t : TableSet} {constant : UInt32} {place : Nat}
    (h : basis t constant place = .ok entries) : lane t constant place = .ok (fill entries) := by
  have htable : (Vector.ofFn fun b => combine entries (UInt8.ofNat b)) = fill entries := by
    apply ByteTable.ext
    intro b
    rw [ByteTable.lookup_ofFn, UInt8.ofNat_toNat, lookup_fill]
  rw [lane, h, Outcome.ok_bind, Outcome.pure_eq_ok, htable]

end Fill

end Multiplier

namespace Modulus

/-- A byte moved up stands for a multiple of a power of `x`. -/
theorem residue_shiftLeft (m : Modulus) (b : UInt8) {k : Nat} (h : k + 8 ≤ m.width.bits) :
    m.residue (b.toNat <<< k) = m.residue b.toNat * m.x ^ k := by
  obtain ⟨d, hd⟩ := Nat.exists_eq_add_of_le h
  have hlow : bitPoly k (b.toNat <<< k) = 0 := by
    rw [← bitPoly_zero k]
    apply bitPoly_congr
    intro i hi
    simp [Nat.testBit_shiftLeft, hi]
  have hle : 8 ≤ m.width.bits := by omega
  have hbyte : bitPoly (8 + d) b.toNat = bitPoly m.width.bits b.toNat := by
    rw [bitPoly_of_lt b.toNat_lt (Nat.le_add_right 8 d), bitPoly_of_lt b.toNat_lt hle]
  have hmoved : bitPoly m.width.bits (b.toNat <<< k) = X ^ k * bitPoly m.width.bits b.toNat := by
    rw [← hbyte, hd, Nat.add_assoc, bitPoly_add, hlow, zero_add, Nat.shiftLeft_shiftRight]
  rw [residue, residue, hmoved, map_mul, map_pow, AdjoinRoot.mk_X, mul_comm, x]

theorem represents_byte (m : Modulus) (b : UInt8) {place : Nat}
    (hplace : place < m.width.elementBytes) :
    m.Represents (b.toUInt32 <<< UInt32.ofNat (8 * place)).toNat
      (m.residue b.toNat * m.x ^ (8 * place)) := by
  have hbits := m.width.elementBytes_mul_eight
  have hle := m.width.bits_le
  have hshift : (UInt32.ofNat (8 * place)).toNat % 32 = 8 * place := by
    rw [UInt32.toNat_ofNat_of_lt' (lt_of_lt_of_le (by omega : 8 * place < 32) (by decide))]
    omega
  have hlt : b.toNat <<< (8 * place) < 2 ^ m.width.bits := by
    have hpow : 2 ^ (8 + 8 * place) ≤ 2 ^ m.width.bits :=
      Nat.pow_le_pow_right (by omega) (by omega)
    rw [Nat.shiftLeft_eq]
    rw [pow_add] at hpow
    exact lt_of_lt_of_le (Nat.mul_lt_mul_of_pos_right b.toNat_lt (Nat.two_pow_pos _)) hpow
  have hword : (b.toUInt32 <<< UInt32.ofNat (8 * place)).toNat = b.toNat <<< (8 * place) := by
    rw [UInt32.toNat_shiftLeft, hshift, UInt8.toNat_toUInt32]
    exact Nat.mod_eq_of_lt (lt_of_lt_of_le hlt (Nat.pow_le_pow_right (by omega) hle))
  rw [hword, ← m.residue_shiftLeft b (by omega)]
  exact m.represents_residue hlt

end Modulus

namespace Word

variable {w : Width} {i : Nat}

theorem lane_of_lt {n : Nat} (h : n < 2 ^ (w.bits * i)) : lane w n i = 0 := by
  rw [lane, Nat.shiftRight_eq_div_pow, Nat.div_eq_of_lt h]
  rfl

theorem lane_fits (h : i < 64 / w.bits) : w.bits * (i + 1) ≤ 64 := by
  have := Nat.mul_le_of_le_div w.bits (i + 1) 64 h
  rwa [Nat.mul_comm]

/-- Words are told apart by the elements that they have room for. -/
theorem eq_of_lanes_eq {a b : UInt64}
    (h : ∀ i < 64 / w.bits, lane w a.toNat i = lane w b.toNat i) : a = b := by
  apply UInt64.toNat_inj.mp
  apply eq_of_lane_eq (w := w)
  intro i
  by_cases hi : i < 64 / w.bits
  · exact h i hi
  · have hpast : 2 ^ 64 ≤ 2 ^ (w.bits * i) := by
      apply Nat.pow_le_pow_right (by omega)
      cases w <;> simp only [Width.bits, Width.params] at hi ⊢ <;> omega
    rw [lane_of_lt (lt_of_lt_of_le a.toNat_lt hpast), lane_of_lt (lt_of_lt_of_le b.toNat_lt hpast)]

end Word

namespace Multiplier

variable {m : Modulus} {t : TableSet} {constant : UInt32} {r : m.Residue}

/-- There is one table of the products of a residue. -/
theorem HoldsMultiples.unique {first second : ByteTable UInt32}
    (h : HoldsMultiples m r first) (h' : HoldsMultiples m r second) : first = second := by
  apply ByteTable.ext
  intro b
  exact UInt32.toNat_inj.mp ((h b).unique (h' b))

/-- A table of the products at a place is filled from the products of the bits there. -/
theorem HoldsMultiples.eq_fill {place : Nat} {table : ByteTable UInt32} (ht : t.Holds m)
    (hc : m.Represents constant.toNat r) (hplace : place < m.width.elementBytes)
    (h : HoldsMultiples m (r * m.x ^ (8 * place)) table) :
    ∃ entries, basis t constant place = .ok entries ∧ table = fill entries := by
  obtain ⟨entries, hentries, _⟩ := basis_represents ht hc hplace
  obtain ⟨filled, hlane, hfilled⟩ := lane_holdsMultiples ht hc hplace
  rw [lane_eq_fill hentries] at hlane
  refine ⟨entries, hentries, ?_⟩
  rw [Except.ok.inj hlane]
  exact h.unique hfilled

end Multiplier

namespace BinaryField

variable {f : BinaryField} {m : Modulus} {c : UInt32} {r : m.Residue} {k : Multiplier}

/-- The entry of a byte at a place is its product. -/
theorem mul_byte (h : f.tables.Holds m) (hc : m.Represents c.toNat r) {place : Nat}
    {table : ByteTable UInt32} (hplace : place < m.width.elementBytes)
    (htable : Multiplier.HoldsMultiples m (r * m.x ^ (8 * place)) table) (b : UInt8) :
    f.mul c (b.toUInt32 <<< UInt32.ofNat (8 * place)) = .ok (table.lookup b) := by
  have hproduct := gives_mul h hc (m.represents_byte b hplace)
  have hentry := htable b
  rw [mul_assoc, mul_comm (m.x ^ _)] at hentry
  exact hproduct.eq_ok hentry

/-- The element at a place of the word's product is the product of the element there. -/
theorem mul_lane (h : f.tables.Holds m) (hc : m.Represents c.toNat r) (hk : k.Multiplies m r)
    (word : UInt64) {i : Nat} (hi : i < 64 / m.width.bits) :
    f.mul c (Word.lane m.width word.toNat i) =
      .ok (Word.lane m.width (k.onWord word).toNat i) := by
  have helement := m.represents_residue (Word.lane_lt m.width word.toNat i)
  rw [hk.lane_onWord word (Word.lane_fits hi)]
  exact (gives_mul h hc helement).eq_ok (hk.represents_mul _)

/-- For a constant of a field there is one table for each byte of an element. It is filled from
the products of the eight bits there and has the product of every byte at its place. The
product of a word is the word whose elements are the products of the elements: zeros stay, and
an element of the product depends on no element but the one at its place. -/
theorem word_product_by_lanes (h : TableSet.build m = .ok f.tables)
    (hc : c.toNat ≤ 2 ^ m.width.bits - 1) :
    ∃ k, Multiplier.ofConstant f.tables c = .ok k ∧ k.width = m.width ∧
      k.lanes.length = m.width.elementBytes ∧
      (∀ place table, k.lanes[place]? = some table →
        (∃ entries, Multiplier.basis f.tables c place = .ok entries ∧
          table = Multiplier.fill entries) ∧
        ∀ b : UInt8, (table.lookup b).toNat ≤ 2 ^ m.width.bits - 1 ∧
          f.mul c (b.toUInt32 <<< UInt32.ofNat (8 * place)) = .ok (table.lookup b)) ∧
      (∀ word out : UInt64, out = k.onWord word ↔ ∀ i < 64 / m.width.bits,
        f.mul c (Word.lane m.width word.toNat i) = .ok (Word.lane m.width out.toNat i)) ∧
      (∀ (word : UInt64) (i : Nat), i < 64 / m.width.bits →
        Word.lane m.width word.toNat i = 0 → Word.lane m.width (k.onWord word).toNat i = 0) ∧
      ∀ (first second : UInt64) (i : Nat), i < 64 / m.width.bits →
        Word.lane m.width first.toNat i = Word.lane m.width second.toNat i →
        Word.lane m.width (k.onWord first).toNat i =
          Word.lane m.width (k.onWord second).toNat i := by
  have hholds := TableSet.holds_of_build h
  rw [← Width.order_eq] at hc
  have hrc := m.represents_of_le_order hc
  obtain ⟨k, hk, hmultiplies⟩ := Multiplier.ofConstant_multiplies hholds hrc
  have hlanes (word : UInt64) (i : Nat) (hi : i < 64 / m.width.bits) :=
    mul_lane hholds hrc hmultiplies word hi
  have hapart (first second : UInt64) (i : Nat) (hi : i < 64 / m.width.bits)
      (hsame : Word.lane m.width first.toNat i = Word.lane m.width second.toNat i) :
      Word.lane m.width (k.onWord first).toNat i = Word.lane m.width (k.onWord second).toNat i := by
    have hfirst := hlanes first i hi
    rw [hsame, hlanes second i hi] at hfirst
    exact (Except.ok.inj hfirst).symm
  refine ⟨k, hk, hmultiplies.width, hmultiplies.count, ?_, ?_, ?_, hapart⟩
  · intro place table htable
    have hplace : place < m.width.elementBytes := by
      rw [← hmultiplies.count]
      exact (List.getElem?_eq_some_iff.mp htable).1
    have hmultiples := hmultiplies.lanes place table htable
    refine ⟨hmultiples.eq_fill hholds hrc hplace, fun b => ⟨?_, ?_⟩⟩
    · rw [← Width.order_eq]
      exact m.width.lt_two_pow_iff.mp (hmultiples b).lt
    · exact mul_byte hholds hrc hplace hmultiples b
  · intro word out
    constructor
    · rintro rfl
      exact hlanes word
    · intro hout
      apply Word.eq_of_lanes_eq (w := m.width)
      intro i hi
      exact Except.ok.inj ((hout i hi).symm.trans (hlanes word i hi))
  · intro word i hi hzero
    have hnothing := gives_mul (b := 0) hholds hrc m.represents_zero
    have hproduct := hlanes word i hi
    rw [mul_zero] at hnothing
    rw [hzero, hnothing.eq_ok (v := 0) m.represents_zero] at hproduct
    exact (Except.ok.inj hproduct).symm

/-- A word of width 16 whose second element is zero. -/
theorem word_product_by_lanes_w16 :
    ∃ f : BinaryField, TableSet.build (Modulus.ofWidth .w16) = .ok f.tables ∧
      ∃ k, Multiplier.ofConstant f.tables 0x3A5C = .ok k ∧ k.lanes.length = 2 ∧
        Word.lane .w16 (k.onWord 0x1234567800009ABC).toNat 1 = 0 ∧
        f.mul 0x3A5C 0x1234 = .ok (Word.lane .w16 (k.onWord 0x1234567800009ABC).toNat 3) := by
  obtain ⟨t, hbuild, _⟩ := TableSet.build_of_admissible (Modulus.admissible_ofWidth .w16)
  obtain ⟨k, hk, _, hcount, _, hword, hzero, _⟩ :=
    word_product_by_lanes (f := ⟨⟨0, t⟩⟩) (c := 0x3A5C) hbuild (by decide)
  have hsecond : Word.lane .w16 (0x1234567800009ABC : UInt64).toNat 1 = 0 := by decide
  exact ⟨⟨⟨0, t⟩⟩, hbuild, k, hk, hcount, hzero _ 1 (by decide) hsecond,
    (hword 0x1234567800009ABC _).mp rfl 3 (by decide)⟩

end BinaryField

end ErasureField
