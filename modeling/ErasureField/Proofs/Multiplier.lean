import ErasureField.Proofs.Lane
import ErasureField.Proofs.TableArithmetic
import ErasureField.Region.Multiplier

/-!
What the tables for one constant compute. A table for one place is spanned by the
products of the constant and the eight bits there, and so holds the products of all
bytes; the entries of an element's bytes add up to its product. In a word the products
stay apart, since none is wider than the element it comes from.
-/

namespace ErasureField

open Polynomial

namespace Multiplier

variable {m : Modulus} {t : TableSet} {constant : UInt32} {r : m.Residue}

/-- A table of the products of a residue and all bytes. -/
def HoldsMultiples (m : Modulus) (r : m.Residue) (table : ByteTable UInt32) : Prop :=
  ∀ b : UInt8, m.Represents (table.lookup b).toNat (r * m.residue b.toNat)

structure Multiplies (k : Multiplier) (m : Modulus) (r : m.Residue) : Prop where
  width : k.width = m.width
  count : k.lanes.length = m.width.elementBytes
  lanes : ∀ (j : Nat) (table : ByteTable UInt32), k.lanes[j]? = some table →
    HoldsMultiples m (r * m.x ^ (8 * j)) table

theorem residue_byte (m : Modulus) (a : Nat) :
    m.residue (a % 2 ^ 8) = AdjoinRoot.mk m.reducer (bitPoly 8 a) := by
  have hbits : 8 ≤ m.width.bits := by
    rw [← m.width.elementBytes_mul_eight]
    cases m.width <;> decide
  have hlt : a % 2 ^ 8 < 2 ^ 8 := Nat.mod_lt _ (Nat.two_pow_pos 8)
  rw [Modulus.residue, bitPoly_of_lt hlt hbits, bitPoly_mod_two_pow a (le_refl 8)]

/-- Sums over the set bits of a byte, where the entries belong to consecutive powers
of `x`. -/
theorem represents_combine {entries : List UInt32}
    (h : ∀ (j : Nat) (entry : UInt32), entries[j]? = some entry →
      m.Represents entry.toNat (r * m.x ^ j)) (b : UInt8) :
    m.Represents (combine entries b).toNat
      (r * AdjoinRoot.mk m.reducer (bitPoly entries.length b.toNat)) := by
  induction entries generalizing r b with
  | nil =>
    simpa [combine, bitPoly] using m.represents_zero
  | cons entry rest ih =>
    have hentry : m.Represents entry.toNat r := by
      simpa using h 0 entry rfl
    have hfirst : m.Represents (if b &&& 1 = 1 then entry else 0).toNat
        (r * AdjoinRoot.mk m.reducer (if b.toNat.testBit 0 then 1 else 0)) := by
      simp only [and_one_eq_one_iff_testBit]
      split
      · simpa using hentry
      · simpa using m.represents_zero
    have hhalf : (b >>> 1).toNat = b.toNat >>> 1 := by
      simp [UInt8.toNat_shiftRight]
    have hrest : m.Represents (combine rest (b >>> 1)).toNat
        (r * m.x * AdjoinRoot.mk m.reducer (bitPoly rest.length (b.toNat >>> 1))) := by
      rw [← hhalf]
      apply ih
      intro j e he
      have hnext := h (j + 1) e (by simpa using he)
      rwa [pow_succ', ← mul_assoc] at hnext
    have hsum := hfirst.add hrest
    rw [List.length_cons, bitPoly_succ_low, map_add, map_mul, AdjoinRoot.mk_X, ← Modulus.x,
      mul_add, ← mul_assoc]
    exact hsum

theorem represents_bit (m : Modulus) {k : Nat} (h : k < m.width.bits) :
    m.Represents ((1 : UInt32) <<< UInt32.ofNat k).toNat (m.x ^ k) := by
  have hle := m.width.bits_le
  have hsmall : k < 2 ^ 32 := by omega
  have hword : 2 ^ k < 2 ^ 32 := Nat.pow_lt_pow_right (by omega) (by omega)
  have hplace : (UInt32.ofNat k).toNat % 32 = k := by
    rw [UInt32.toNat_ofNat_of_lt' hsmall]
    omega
  have hpower : ((1 : UInt32) <<< UInt32.ofNat k).toNat = 2 ^ k := by
    rw [UInt32.toNat_shiftLeft, hplace, UInt32.toNat_one, Nat.one_shiftLeft,
      Nat.mod_eq_of_lt hword]
  rw [hpower, ← m.residue_two_pow h]
  exact m.represents_residue (Nat.pow_lt_pow_right (by omega) h)

theorem basis_represents (h : t.Holds m) (hc : m.Represents constant.toNat r) {place : Nat}
    (hplace : place < m.width.elementBytes) :
    ∃ entries, basis t constant place = .ok entries ∧ entries.length = 8 ∧
      ∀ (j : Nat) (entry : UInt32), entries[j]? = some entry →
        m.Represents entry.toNat (r * m.x ^ (8 * place) * m.x ^ j) := by
  have hbits := m.width.elementBytes_mul_eight
  apply Outcome.mapM_range_ok
  intro bit hbit
  have hproduct := h.gives_mul hc (represents_bit m (k := 8 * place + bit) (by omega))
  rwa [pow_add, ← mul_assoc] at hproduct

theorem lane_holdsMultiples (h : t.Holds m) (hc : m.Represents constant.toNat r) {place : Nat}
    (hplace : place < m.width.elementBytes) :
    ∃ table, lane t constant place = .ok table ∧
      HoldsMultiples m (r * m.x ^ (8 * place)) table := by
  obtain ⟨entries, hentries, hlength, hrepresents⟩ := basis_represents h hc hplace
  refine ⟨Vector.ofFn fun b => combine entries (UInt8.ofNat b), ?_, ?_⟩
  · rw [lane, hentries, Outcome.ok_bind, Outcome.pure_eq_ok]
  · intro b
    have hbyte : b.toNat % 2 ^ 8 = b.toNat := Nat.mod_eq_of_lt b.toNat_lt
    have hcombined := represents_combine hrepresents b
    rw [hlength, ← residue_byte, hbyte] at hcombined
    rw [ByteTable.lookup_ofFn, UInt8.ofNat_toNat]
    exact hcombined

theorem holdsMultiples_row {products : ByteProducts} (h : products.Tabulates m) (a : UInt8) :
    HoldsMultiples m (m.residue a.toNat) ((products.row a).map UInt8.toUInt32) := by
  intro b
  rw [ByteTable.lookup_map, UInt8.toNat_toUInt32]
  exact h a b

/-- Every constant of a field has tables, whichever layout the field has. -/
theorem ofConstant_multiplies (h : t.Holds m) (hc : m.Represents constant.toNat r) :
    ∃ k, ofConstant t constant = .ok k ∧ k.Multiplies m r := by
  have hlanes : ∃ lanes, (List.range m.width.elementBytes).mapM (lane t constant) = .ok lanes ∧
      lanes.length = m.width.elementBytes ∧
      ∀ (j : Nat) (table : ByteTable UInt32), lanes[j]? = some table →
        HoldsMultiples m (r * m.x ^ (8 * j)) table := by
    apply Outcome.mapM_range_ok
    intro place hplace
    exact lane_holdsMultiples h hc hplace
  obtain ⟨p, layout⟩ := t
  obtain ⟨_, _, hlayout⟩ := h
  cases hlayout with
  | gf8 _ hproducts =>
    refine ⟨⟨.w8, [_]⟩, rfl, rfl, rfl, ?_⟩
    intro j table htable
    obtain ⟨rfl, rfl⟩ : j = 0 ∧ _ = table := by
      cases j with
      | zero => exact ⟨rfl, Option.some.inj htable⟩
      | succ j => cases htable
    have hbyte : constant.toUInt8.toNat = constant.toNat := by
      rw [UInt32.toNat_toUInt8]
      exact Nat.mod_eq_of_lt hc.lt
    have hrow := holdsMultiples_row hproducts constant.toUInt8
    rw [hbyte, hc.residue_eq] at hrow
    simpa using hrow
  | @gf16 q logs _ =>
    obtain ⟨lanes, hbuilt, hlength, hmultiples⟩ := hlanes
    have hpair : (List.range 2).mapM (lane ⟨p, .gf16 logs⟩ constant) = .ok lanes := hbuilt
    refine ⟨⟨.w16, lanes⟩, ?_, rfl, hlength, hmultiples⟩
    simp only [ofConstant, hpair, Outcome.ok_bind, Outcome.pure_eq_ok]
  | gf32 q =>
    obtain ⟨lanes, hbuilt, hlength, hmultiples⟩ := hlanes
    have hfour : (List.range 4).mapM
        (lane ⟨p, .gf32 (PartialProducts.build q)⟩ constant) = .ok lanes := hbuilt
    refine ⟨⟨.w32, lanes⟩, ?_, rfl, hlength, hmultiples⟩
    simp only [ofConstant, hfour, Outcome.ok_bind, Outcome.pure_eq_ok]

theorem represents_onElement {lanes : List (ByteTable UInt32)}
    (h : ∀ (j : Nat) (table : ByteTable UInt32), lanes[j]? = some table →
      HoldsMultiples m (r * m.x ^ (8 * j)) table) (e : UInt32) :
    m.Represents (onElement lanes e).toNat
      (r * AdjoinRoot.mk m.reducer (bitPoly (8 * lanes.length) e.toNat)) := by
  induction lanes generalizing r e with
  | nil =>
    simpa [onElement, bitPoly] using m.represents_zero
  | cons table rest ih =>
    have hfirst : m.Represents (table.lookup e.toUInt8).toNat
        (r * AdjoinRoot.mk m.reducer (bitPoly 8 e.toNat)) := by
      have htable := h 0 table rfl e.toUInt8
      rw [UInt32.toNat_toUInt8, residue_byte] at htable
      simpa using htable
    have hothers : (e >>> 8).toNat = e.toNat >>> 8 := by
      simp [UInt32.toNat_shiftRight]
    have hrest : m.Represents (onElement rest (e >>> 8)).toNat
        (r * m.x ^ 8 * AdjoinRoot.mk m.reducer (bitPoly (8 * rest.length) (e.toNat >>> 8))) := by
      rw [← hothers]
      apply ih
      intro j other hother
      have hnext := h (j + 1) other (by simpa using hother)
      rwa [Nat.mul_succ, Nat.add_comm, pow_add, ← mul_assoc] at hnext
    have hsum := hfirst.add hrest
    rw [List.length_cons, Nat.mul_succ, Nat.add_comm, bitPoly_add, map_add, map_mul, map_pow,
      AdjoinRoot.mk_X, ← Modulus.x, mul_add, ← mul_assoc]
    exact hsum

namespace Multiplies

variable {k : Multiplier}

/-- The tables of an element's bytes give its product. -/
theorem represents_mul (h : k.Multiplies m r) (e : UInt32) :
    m.Represents (onElement k.lanes e).toNat (r * m.residue e.toNat) := by
  have hproduct := represents_onElement h.lanes e
  rwa [h.count, Nat.mul_comm, m.width.elementBytes_mul_eight] at hproduct

/-- The word kernel looks at 32 bits of a word, of which those above the element do not
count. -/
theorem onElement_lane (h : k.Multiplies m r) (word : UInt64) :
    onElement k.lanes (Word.lane m.width word.toNat 0) = onElement k.lanes word.toUInt32 := by
  have hlane : m.residue (Word.lane m.width word.toNat 0).toNat = m.residue word.toNat := by
    rw [Word.toNat_lane, Nat.mul_zero, Nat.shiftRight_zero]
    exact m.residue_mod_two_pow _ (le_refl _)
  have hword : m.residue word.toUInt32.toNat = m.residue word.toNat := by
    rw [UInt64.toNat_toUInt32]
    exact m.residue_mod_two_pow _ m.width.bits_le
  have hfirst := h.represents_mul (Word.lane m.width word.toNat 0)
  have hsecond := h.represents_mul word.toUInt32
  rw [hlane] at hfirst
  rw [hword] at hsecond
  exact UInt32.toNat_inj.mp (hfirst.unique hsecond)

/-- The lowest element's product, and the others' moved up: no bit of one meets a bit of
another. -/
theorem toNat_onElements_succ (h : k.Multiplies m r) {n : Nat} (word : UInt64)
    (hfits : m.width.bits * (n + 1) ≤ 64)
    (hothers : (k.onElements n (word >>> UInt64.ofNat m.width.bits)).toNat <
      2 ^ (m.width.bits * n)) :
    (k.onElements (n + 1) word).toNat = (onElement k.lanes word.toUInt32).toNat +
      2 ^ m.width.bits * (k.onElements n (word >>> UInt64.ofNat m.width.bits)).toNat := by
  have hbits := m.width.bits_le
  have hfirst : (onElement k.lanes word.toUInt32).toNat < 2 ^ m.width.bits :=
    (h.represents_mul word.toUInt32).lt
  have hmoved : (k.onElements n (word >>> UInt64.ofNat m.width.bits)).toNat <<< m.width.bits <
      2 ^ 64 := by
    have hle : 2 ^ (m.width.bits * (n + 1)) ≤ 2 ^ 64 := Nat.pow_le_pow_right (by omega) hfits
    rw [Nat.shiftLeft_eq]
    apply lt_of_lt_of_le _ hle
    rw [Nat.mul_succ, pow_add]
    exact Nat.mul_lt_mul_of_pos_right hothers (Nat.two_pow_pos _)
  rw [onElements, h.width, UInt64.toNat_or, UInt32.toNat_toUInt64, UInt64.toNat_shiftLeft,
    m.width.toNat_ofNat_bits, Nat.mod_eq_of_lt hmoved, Nat.or_comm,
    ← Nat.shiftLeft_add_eq_or_of_lt hfirst, Nat.shiftLeft_eq, Nat.mul_comm, Nat.add_comm]

theorem onElements_lt (h : k.Multiplies m r) {n : Nat} (word : UInt64)
    (hfits : m.width.bits * n ≤ 64) : (k.onElements n word).toNat < 2 ^ (m.width.bits * n) := by
  induction n generalizing word with
  | zero =>
    rw [onElements, UInt64.toNat_zero]
    exact Nat.two_pow_pos _
  | succ n ih =>
    have hothers := ih (word >>> UInt64.ofNat m.width.bits) (by rw [Nat.mul_succ] at hfits; omega)
    have hfirst : (onElement k.lanes word.toUInt32).toNat < 2 ^ m.width.bits :=
      (h.represents_mul word.toUInt32).lt
    rw [h.toNat_onElements_succ word hfits hothers, Nat.mul_succ, Nat.add_comm (m.width.bits * n),
      pow_add]
    nlinarith

theorem lane_onElements (h : k.Multiplies m r) {n i : Nat} (word : UInt64)
    (hfits : m.width.bits * n ≤ 64) (hi : i < n) :
    Word.lane m.width (k.onElements n word).toNat i =
      onElement k.lanes (Word.lane m.width word.toNat i) := by
  induction n generalizing word i with
  | zero => omega
  | succ n ih =>
    have hfewer : m.width.bits * n ≤ 64 := by
      rw [Nat.mul_succ] at hfits
      omega
    have hfirst : (onElement k.lanes word.toUInt32).toNat < 2 ^ m.width.bits :=
      (h.represents_mul word.toUInt32).lt
    rw [h.toNat_onElements_succ word hfits (h.onElements_lt _ hfewer)]
    cases i with
    | zero =>
      rw [h.onElement_lane, ← UInt32.toNat_inj, Word.lane_add_zero hfirst]
    | succ i =>
      have hothers : Word.lane m.width (word >>> UInt64.ofNat m.width.bits).toNat i =
          Word.lane m.width word.toNat (i + 1) := by
        rw [UInt64.toNat_shiftRight, m.width.toNat_ofNat_bits, Nat.add_comm i 1,
          ← Word.lane_shiftRight, Nat.mul_one]
      rw [Word.lane_add_succ hfirst, ih _ hfewer (by omega), hothers]

/-- The products of a word's elements are the elements of the word's product. -/
theorem lane_onWord (h : k.Multiplies m r) (word : UInt64) {i : Nat}
    (hi : m.width.bits * (i + 1) ≤ 64) :
    Word.lane m.width (k.onWord word).toNat i =
      onElement k.lanes (Word.lane m.width word.toNat i) := by
  have hbits := m.width.elementBytes_mul_eight
  have hpos := m.width.one_lt_bits
  have hall : m.width.bits * (wordBytes / m.width.elementBytes) = 64 := by
    cases m.width <;> rfl
  have hplace : i < wordBytes / m.width.elementBytes := by
    have hlt : m.width.bits * i < m.width.bits * (wordBytes / m.width.elementBytes) := by
      rw [Nat.mul_succ] at hi
      omega
    exact Nat.lt_of_mul_lt_mul_left hlt
  rw [onWord, h.width]
  exact h.lane_onElements word hall.le hplace

/-- Applying the tables to a source and a destination acts on each pair of elements by
itself. -/
theorem elementAt_apply (h : k.Multiplies m r) {src dst : Bytes} (accumulate : Bool)
    (hlength : src.length = dst.length) {i : Nat}
    (hi : (i + 1) * m.width.elementBytes ≤ dst.length) :
    Word.elementAt m.width (k.apply src dst accumulate) i =
      if accumulate then
        Word.elementAt m.width dst i ^^^ onElement k.lanes (Word.elementAt m.width src i)
      else onElement k.lanes (Word.elementAt m.width src i) := by
  have hlanewise : Word.Lanewise m.width
      (fun s d => if accumulate then d ^^^ k.onWord s else k.onWord s)
      (fun s d => if accumulate then d ^^^ onElement k.lanes s else onElement k.lanes s) := by
    intro s d i hi
    cases accumulate with
    | false => exact h.lane_onWord s hi
    | true =>
      simp only [if_true]
      rw [UInt64.toNat_xor, Word.lane_xor, h.lane_onWord s hi]
  exact hlanewise.elementAt_zipWords hlength hi

end Multiplies

theorem length_apply (k : Multiplier) {src dst : Bytes} (accumulate : Bool)
    (hlength : src.length = dst.length) : (k.apply src dst accumulate).length = dst.length :=
  Word.length_zipWords _ hlength

end Multiplier

end ErasureField
