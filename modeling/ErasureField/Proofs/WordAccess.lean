import ErasureField.Proofs.Lane
import Mathlib.Algebra.BigOperators.Intervals

/-!
Loads and stores at the beginning of a byte string of any length. A word that is loaded is the
number of the bytes there are, and a word that is stored is cut to them, so that loading and
storing undo each other as far as the bytes go. Bytes are elements of width 8; where there are
eight of them, the elements of every width that are loaded from their places are those of the
whole word.
-/

namespace ErasureField.Word

/-- The number of a byte string as the sum of its bytes, each in its place. -/
theorem number_eq_sum (bytes : Bytes) :
    number bytes = ∑ i ∈ Finset.range bytes.length, (bytes.getD i 0).toNat * 256 ^ i := by
  induction bytes with
  | nil => rfl
  | cons b rest ih =>
    rw [number_cons, ih, List.length_cons, Finset.sum_range_succ', Finset.mul_sum,
      Nat.add_comm]
    congr 1
    · apply Finset.sum_congr rfl
      intro i _
      rw [List.getD_cons_succ, pow_succ']
      ring
    · rw [List.getD_cons_zero, pow_zero, mul_one]

theorem toNat_loadPadded (bytes : Bytes) :
    (loadPadded bytes).toNat = number (bytes.take wordBytes) := by
  rw [loadPadded, toNat_ofBytes_take bytes (le_refl wordBytes), number_take]

theorem toNat_loadPadded_eq_sum (bytes : Bytes) : (loadPadded bytes).toNat =
    ∑ i ∈ Finset.range (min bytes.length wordBytes), (bytes.getD i 0).toNat * 256 ^ i := by
  rw [toNat_loadPadded, number_eq_sum, List.length_take, Nat.min_comm]
  apply Finset.sum_congr rfl
  intro i hi
  have hlt : i < wordBytes := by
    have := Finset.mem_range.mp hi
    omega
  rw [List.getD_eq_getElem?_getD, List.getD_eq_getElem?_getD, List.getElem?_take_of_lt hlt]

/-- A byte is an element of width 8. -/
theorem toUInt32_getD (bytes : Bytes) (i : Nat) :
    (bytes.getD i 0).toUInt32 = elementAt .w8 bytes i := by
  have hplace : i * Width.w8.elementBytes = i := Nat.mul_one i
  rw [List.getD_eq_getElem?_getD, ← List.head?_drop, elementAt, hplace]
  cases bytes.drop i with
  | nil => rfl
  | cons b rest =>
    have hbyte : ofBytes [b] = b.toUInt64 := UInt64.or_zero
    show b.toUInt32 = (ofBytes [b]).toUInt32
    rw [hbyte, UInt8.toUInt32_toUInt64]

section Store

variable (bytes : Bytes) (word : UInt64)

theorem take_storeCut :
    (storeCut bytes word).take wordBytes = toBytes (min bytes.length wordBytes) word := by
  rcases Nat.lt_or_ge bytes.length wordBytes with hshort | hwhole
  · rw [storeCut_of_lt hshort, Nat.min_eq_left hshort.le,
      List.take_of_length_le (by rw [length_toBytes]; exact hshort.le)]
  · rw [storeCut_of_le hwhole, Nat.min_eq_right hwhole,
      List.take_left' (length_toBytes wordBytes word)]

/-- The bytes after those of a word are not written. -/
theorem drop_storeCut : (storeCut bytes word).drop wordBytes = bytes.drop wordBytes := by
  rcases Nat.lt_or_ge bytes.length wordBytes with hshort | hwhole
  · rw [List.drop_eq_nil_of_le hshort.le,
      List.drop_eq_nil_of_le (by rw [length_storeCut]; exact hshort.le)]
  · rw [storeCut_of_le hwhole, List.drop_left' (length_toBytes wordBytes word)]

/-- The bytes that are written are those of the word. -/
theorem toNat_getD_storeCut {i : Nat} (hi : i < min bytes.length wordBytes) :
    ((storeCut bytes word).getD i 0).toNat = word.toNat >>> (8 * i) % 2 ^ 8 := by
  have hroom : (i + 1) * Width.w8.elementBytes ≤ min bytes.length wordBytes :=
    (Nat.mul_one (i + 1)).trans_le hi
  have hfirst : (i + 1) * Width.w8.elementBytes ≤ wordBytes := hroom.trans (Nat.min_le_right _ _)
  rw [← UInt8.toNat_toUInt32, toUInt32_getD, ← elementAt_take _ hfirst, take_storeCut,
    elementAt_toBytes word hroom, toNat_lane]
  rfl

theorem toNat_loadPadded_storeCut :
    (loadPadded (storeCut bytes word)).toNat = word.toNat % 256 ^ min bytes.length wordBytes := by
  rw [toNat_loadPadded, take_storeCut, number_toBytes, two_pow_eight_mul]

theorem storeCut_loadPadded : storeCut bytes (loadPadded bytes) = bytes := by
  have hfirst : bytes.take wordBytes = bytes.take (min wordBytes bytes.length) :=
    List.take_eq_take_min
  rw [storeCut, loadPadded, hfirst,
    toBytes_ofBytes_take (Nat.min_le_left _ _) (Nat.min_le_right _ _), ← hfirst,
    List.take_append_drop]

end Store

section Load

variable {w : Width} {bytes : Bytes} {i : Nat}

theorem load_of_le (h : wordBytes ≤ bytes.length) :
    load wordBytes bytes = .ok (loadPadded bytes) :=
  if_pos h

/-- An element is loaded from its bytes. -/
theorem load_element (h : (i + 1) * w.elementBytes ≤ bytes.length) :
    (load w.elementBytes ((bytes.drop (i * w.elementBytes)).take w.elementBytes)).map
      UInt64.toNat = .ok (elementAt w bytes i).toNat := by
  let slice : Bytes := (bytes.drop (i * w.elementBytes)).take w.elementBytes
  have hlength : slice.length = w.elementBytes := by
    rw [Nat.succ_mul] at h
    exact List.length_take_of_le (by rw [List.length_drop]; omega)
  have hload : load w.elementBytes slice = .ok (ofBytes slice) := by
    rw [load, if_pos hlength.ge, List.take_of_length_le hlength.le]
  rw [hload, Except.map, toNat_ofBytes_slice, elementAt_eq_lane, toNat_lane]

/-- An element that begins and ends in the first eight bytes is a group of bits of the word that
is loaded from them, also where bytes are missing. -/
theorem toNat_elementAt_of_le (bytes : Bytes) (h : (i + 1) * w.elementBytes ≤ wordBytes) :
    (elementAt w bytes i).toNat = (loadPadded bytes).toNat >>> (w.bits * i) % 2 ^ w.bits := by
  rw [← lane_ofBytes bytes h (le_refl wordBytes), toNat_lane]
  rfl

theorem load_of_whole (hwhole : wordBytes ≤ bytes.length)
    (h : (i + 1) * w.elementBytes ≤ wordBytes) :
    (load w.elementBytes ((bytes.drop (i * w.elementBytes)).take w.elementBytes)).map
      UInt64.toNat = .ok ((loadPadded bytes).toNat >>> (w.bits * i) % 2 ^ w.bits) := by
  rw [load_element (h.trans hwhole), toNat_elementAt_of_le bytes h]

end Load

/-- Words at the beginning of a byte string, whatever its length. What is loaded is the sum of the
first eight bytes, or of fewer if there are fewer, each in its place. What is stored fills as
many bytes with those of the word, the lowest first, and leaves the bytes after them. A word
that has been stored is loaded up to the bytes there are, and storing what has been loaded
changes nothing. The elements of the first eight bytes are the groups of bits of the word that is
loaded, and if there are eight bytes, the four of width 16 and the two of width 32 can be loaded
from their own bytes. -/
theorem loads_and_stores (bytes : Bytes) (word : UInt64) :
    (loadPadded bytes).toNat =
      ∑ i ∈ Finset.range (min bytes.length 8), (bytes.getD i 0).toNat * 256 ^ i ∧
    (storeCut bytes word).length = bytes.length ∧
    (∀ i < min bytes.length 8,
      ((storeCut bytes word).getD i 0).toNat = word.toNat >>> (8 * i) % 2 ^ 8) ∧
    (storeCut bytes word).drop 8 = bytes.drop 8 ∧
    (loadPadded (storeCut bytes word)).toNat = word.toNat % 256 ^ min bytes.length 8 ∧
    storeCut bytes (loadPadded bytes) = bytes ∧
    (∀ (w : Width) (i : Nat), (i + 1) * w.elementBytes ≤ 8 →
      (elementAt w bytes i).toNat = (loadPadded bytes).toNat >>> (w.bits * i) % 2 ^ w.bits) ∧
    (8 ≤ bytes.length →
      load 8 bytes = .ok (loadPadded bytes) ∧
      (∀ i < 4, (load 2 ((bytes.drop (i * 2)).take 2)).map UInt64.toNat =
        .ok ((loadPadded bytes).toNat >>> (16 * i) % 2 ^ 16)) ∧
      ∀ i < 2, (load 4 ((bytes.drop (i * 4)).take 4)).map UInt64.toNat =
        .ok ((loadPadded bytes).toNat >>> (32 * i) % 2 ^ 32)) := by
  refine ⟨toNat_loadPadded_eq_sum bytes, length_storeCut bytes word, ?_,
    drop_storeCut bytes word, toNat_loadPadded_storeCut bytes word, storeCut_loadPadded bytes,
    ?_, ?_⟩
  · intro i hi
    exact toNat_getD_storeCut bytes word hi
  · intro w i hplace
    exact toNat_elementAt_of_le bytes hplace
  · intro hwhole
    refine ⟨load_of_le hwhole, ?_, ?_⟩
    · intro i hi
      have hplace : (i + 1) * Width.w16.elementBytes ≤ wordBytes := Nat.mul_le_mul_right 2 hi
      exact load_of_whole hwhole hplace
    · intro i hi
      have hplace : (i + 1) * Width.w32.elementBytes ≤ wordBytes := Nat.mul_le_mul_right 4 hi
      exact load_of_whole hwhole hplace

/-- Three bytes have room for the lowest three of a word, and their second element of width 16
has a byte that is missing. Of nine bytes, the last is no part of the word, and the elements of
width 16 and 32 at its end are loaded. -/
theorem loads_and_stores_at_ends :
    storeCut [0xAA, 0xBB, 0xCC] 0xFFFFFFFF00040506 = [6, 5, 4] ∧
    ((storeCut [0xAA, 0xBB, 0xCC] 0xFFFFFFFF00040506).getD 2 0).toNat =
      0xFFFFFFFF00040506 >>> (8 * 2) % 2 ^ 8 ∧
    (elementAt .w16 [0xAA, 0xBB, 0xCC] 1).toNat = 0xCCBBAA >>> (16 * 1) % 2 ^ 16 ∧
    loadPadded [1, 0, 0, 0, 0, 0, 7, 0x80, 0xFF] = 0x8007000000000001 ∧
    (load 2 [7, 0x80]).map UInt64.toNat = .ok (0x8007000000000001 >>> (16 * 3) % 2 ^ 16) ∧
    (load 4 [0, 0, 7, 0x80]).map UInt64.toNat =
      .ok (0x8007000000000001 >>> (32 * 1) % 2 ^ 32) := by
  obtain ⟨_, _, hbyte, _, _, _, helement, _⟩ :=
    loads_and_stores [0xAA, 0xBB, 0xCC] 0xFFFFFFFF00040506
  obtain ⟨_, _, _, _, _, _, _, hwhole⟩ :=
    loads_and_stores [1, 0, 0, 0, 0, 0, 7, 0x80, 0xFF] 0
  obtain ⟨_, hquarters, hhalves⟩ := hwhole (by decide)
  exact ⟨by decide, hbyte 2 (by decide), helement .w16 1 (by decide), by decide,
    hquarters 3 (by decide), hhalves 1 (by decide)⟩

end ErasureField.Word
