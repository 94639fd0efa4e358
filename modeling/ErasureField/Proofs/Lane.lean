import ErasureField.Proofs.ByteNumber
import ErasureField.Proofs.Residue

/-!
Elements of words and buffers. The elements of a number are its groups of `w` bits,
the lowest first, and an element of a buffer is one of the number of its bytes. A
function of words that acts on each element apart from the others therefore acts so
on whole buffers, also where a short end is padded with zeros and cut again: the cut
leaves out no bit of a whole element.
-/

namespace ErasureField

namespace Word

variable {w : Width}

/-- The element at an index of a number, the lowest first. -/
def lane (w : Width) (n i : Nat) : UInt32 := UInt32.ofNat ((n >>> (w.bits * i)) % 2 ^ w.bits)

theorem two_pow_bits_le (w : Width) : 2 ^ w.bits ≤ 2 ^ 32 :=
  Nat.pow_le_pow_right (by omega) w.bits_le

theorem toNat_lane (w : Width) (n i : Nat) :
    (lane w n i).toNat = (n >>> (w.bits * i)) % 2 ^ w.bits := by
  have hlt := Nat.mod_lt (n >>> (w.bits * i)) (Nat.two_pow_pos w.bits)
  rw [lane, UInt32.toNat_ofNat_of_lt' (lt_of_lt_of_le hlt (two_pow_bits_le w))]

theorem lane_lt (w : Width) (n i : Nat) : (lane w n i).toNat < 2 ^ w.bits := by
  rw [toNat_lane]
  exact Nat.mod_lt _ (Nat.two_pow_pos _)

@[simp]
theorem lane_zero (w : Width) (i : Nat) : lane w 0 i = 0 := by
  simp [lane]

theorem lane_xor (w : Width) (a b i : Nat) : lane w (a ^^^ b) i = lane w a i ^^^ lane w b i := by
  rw [← UInt32.toNat_inj, UInt32.toNat_xor, toNat_lane, toNat_lane, toNat_lane,
    Nat.shiftRight_xor_distrib, Nat.xor_mod_two_pow]

/-- Bits above an element have no part in it. -/
theorem lane_mod {k i : Nat} (n : Nat) (h : w.bits * (i + 1) ≤ k) :
    lane w (n % 2 ^ k) i = lane w n i := by
  rw [← UInt32.toNat_inj, toNat_lane, toNat_lane]
  apply Nat.eq_of_testBit_eq
  intro j
  simp only [Nat.testBit_mod_two_pow, Nat.testBit_shiftRight]
  by_cases hj : j < w.bits
  · have hjk : w.bits * i + j < k := by
      rw [Nat.mul_succ] at h
      omega
    simp [hj, hjk]
  · simp [hj]

theorem lane_shiftRight (w : Width) (n k i : Nat) :
    lane w (n >>> (w.bits * k)) i = lane w n (k + i) := by
  rw [lane, lane, ← Nat.shiftRight_add, ← Nat.mul_add]

theorem lane_add_zero {e : Nat} (he : e < 2 ^ w.bits) (n : Nat) :
    (lane w (e + 2 ^ w.bits * n) 0).toNat = e := by
  rw [toNat_lane, Nat.mul_zero, Nat.shiftRight_zero, Nat.add_mul_mod_self_left,
    Nat.mod_eq_of_lt he]

theorem lane_add_succ {e : Nat} (he : e < 2 ^ w.bits) (n i : Nat) :
    lane w (e + 2 ^ w.bits * n) (i + 1) = lane w n i := by
  have hothers : (e + 2 ^ w.bits * n) >>> (w.bits * 1) = n := by
    rw [Nat.mul_one, Nat.shiftRight_eq_div_pow, Nat.add_mul_div_left _ _ (Nat.two_pow_pos _),
      Nat.div_eq_of_lt he, Nat.zero_add]
  rw [Nat.add_comm i 1, ← lane_shiftRight, hothers]

/-- The bytes of an element are a group of bits of the number of all bytes. -/
theorem toNat_ofBytes_slice (w : Width) (bytes : Bytes) (i : Nat) :
    (ofBytes ((bytes.drop (i * w.elementBytes)).take w.elementBytes)).toNat =
      (number bytes >>> (w.bits * i)) % 2 ^ w.bits := by
  have hbits : 8 * w.elementBytes = w.bits := by
    rw [Nat.mul_comm, w.elementBytes_mul_eight]
  have hplace : 8 * (i * w.elementBytes) = w.bits * i := by
    rw [Nat.mul_left_comm, hbits, Nat.mul_comm]
  have hfits : w.elementBytes ≤ wordBytes := by
    cases w <;> decide
  rw [toNat_ofBytes_take _ hfits, number_drop, hplace, hbits]

/-- The elements of a buffer are those of the number of its bytes. -/
theorem elementAt_eq_lane (w : Width) (bytes : Bytes) (i : Nat) :
    elementAt w bytes i = lane w (number bytes) i := by
  have hle := two_pow_bits_le w
  have hlt := Nat.mod_lt (number bytes >>> (w.bits * i)) (Nat.two_pow_pos w.bits)
  rw [← UInt32.toNat_inj, toNat_lane, elementAt, UInt64.toNat_toUInt32, toNat_ofBytes_slice,
    Nat.mod_eq_of_lt (by omega)]

/-- All bits of a number are in its elements. -/
theorem eq_of_lane_eq {a b : Nat} (h : ∀ i, lane w a i = lane w b i) : a = b := by
  apply Nat.eq_of_testBit_eq
  intro j
  have hpos : 0 < w.bits := by
    have := w.one_lt_bits
    omega
  have hlane := congrArg UInt32.toNat (h (j / w.bits))
  have hbit := congrArg (fun n => n.testBit (j % w.bits)) hlane
  simpa [toNat_lane, Nat.testBit_mod_two_pow, Nat.testBit_shiftRight, Nat.mod_lt _ hpos,
    Nat.div_add_mod] using hbit

/-- Byte strings of one length are told apart by their elements. -/
theorem eq_of_elementAt_eq {a b : Bytes} (hlength : a.length = b.length)
    (h : ∀ i, elementAt w a i = elementAt w b i) : a = b := by
  apply number_inj hlength
  apply eq_of_lane_eq (w := w)
  intro i
  rw [← elementAt_eq_lane, ← elementAt_eq_lane, h]

/-- There is nothing but zeros past the end. -/
theorem elementAt_of_length_le {bytes : Bytes} {i : Nat}
    (h : bytes.length ≤ i * w.elementBytes) : elementAt w bytes i = 0 := by
  rw [elementAt, List.drop_eq_nil_of_le h, List.take_nil]
  rfl

section Elements

variable {i n k : Nat}

theorem lane_bits_le (h : (i + 1) * w.elementBytes ≤ n) : w.bits * (i + 1) ≤ 8 * n := by
  rw [← w.elementBytes_mul_eight]
  nlinarith

theorem elementAt_take (bytes : Bytes) (h : (i + 1) * w.elementBytes ≤ n) :
    elementAt w (bytes.take n) i = elementAt w bytes i := by
  rw [elementAt_eq_lane, elementAt_eq_lane, number_take, lane_mod _ (lane_bits_le h)]

theorem elementAt_drop (w : Width) (bytes : Bytes) (k i : Nat) :
    elementAt w (bytes.drop (k * w.elementBytes)) i = elementAt w bytes (k + i) := by
  have hplace : 8 * (k * w.elementBytes) = w.bits * k := by
    rw [← w.elementBytes_mul_eight]
    ring
  rw [elementAt_eq_lane, elementAt_eq_lane, number_drop, hplace, lane_shiftRight]

theorem elementAt_append_left {a : Bytes} (b : Bytes) (h : (i + 1) * w.elementBytes ≤ a.length) :
    elementAt w (a ++ b) i = elementAt w a i := by
  rw [← elementAt_take (a ++ b) h, List.take_left]

theorem elementAt_append_right {a : Bytes} (b : Bytes) (i : Nat)
    (h : a.length = k * w.elementBytes) : elementAt w (a ++ b) (k + i) = elementAt w b i := by
  rw [← elementAt_drop, ← h, List.drop_left]

theorem elementAt_toBytes (word : UInt64) (h : (i + 1) * w.elementBytes ≤ n) :
    elementAt w (toBytes n word) i = lane w word.toNat i := by
  rw [elementAt_eq_lane, number_toBytes, lane_mod _ (lane_bits_le h)]

theorem lane_ofBytes (bytes : Bytes) (h : (i + 1) * w.elementBytes ≤ n) (hn : n ≤ wordBytes) :
    lane w (ofBytes (bytes.take n)).toNat i = elementAt w bytes i := by
  rw [toNat_ofBytes_take bytes hn, lane_mod _ (lane_bits_le h), elementAt_eq_lane]

theorem elementAt_zipWith_xor {a b : Bytes} (h : a.length = b.length) (w : Width) (i : Nat) :
    elementAt w (List.zipWith (· ^^^ ·) a b) i = elementAt w a i ^^^ elementAt w b i := by
  rw [elementAt_eq_lane, elementAt_eq_lane, elementAt_eq_lane, number_zipWith_xor h, lane_xor]

theorem elementAt_replicate_zero (w : Width) (n i : Nat) :
    elementAt w (List.replicate n 0) i = 0 := by
  rw [elementAt_eq_lane, number_replicate_zero, lane_zero]

/-- Overwriting the bytes of an element by those of a word changes that element alone. -/
theorem elementAt_overwrite {bytes : Bytes} (word : UInt64)
    (hk : (k + 1) * w.elementBytes ≤ bytes.length) (i : Nat)
    (hi : (i + 1) * w.elementBytes ≤ bytes.length) :
    elementAt w (bytes.take (k * w.elementBytes) ++ toBytes w.elementBytes word ++
        bytes.drop (k * w.elementBytes + w.elementBytes)) i =
      if i = k then lane w word.toNat 0 else elementAt w bytes i := by
  have hstop : (k + 1) * w.elementBytes = k * w.elementBytes + w.elementBytes :=
    Nat.succ_mul _ _
  have hbefore : (bytes.take (k * w.elementBytes)).length = k * w.elementBytes :=
    List.length_take_of_le (by omega)
  rcases Nat.lt_trichotomy i k with hlt | rfl | hgt
  · have hfits : (i + 1) * w.elementBytes ≤ k * w.elementBytes :=
      Nat.mul_le_mul_right _ hlt
    rw [if_neg hlt.ne, List.append_assoc, elementAt_append_left _ (by rwa [hbefore]),
      elementAt_take bytes hfits]
  · have hwritten := elementAt_append_right (w := w) (toBytes w.elementBytes word ++
      bytes.drop (i * w.elementBytes + w.elementBytes)) 0 hbefore
    rw [Nat.add_zero] at hwritten
    rw [if_pos rfl, List.append_assoc, hwritten, elementAt_append_left _ (by simp),
      elementAt_toBytes word (by simp)]
  · obtain ⟨j, rfl⟩ := Nat.exists_eq_add_of_le (Nat.succ_le_of_lt hgt)
    have hwritten : (bytes.take (k * w.elementBytes) ++ toBytes w.elementBytes word).length =
        (k + 1) * w.elementBytes := by
      rw [List.length_append, hbefore, length_toBytes, hstop]
    rw [if_neg hgt.ne', Nat.succ_eq_add_one, elementAt_append_right _ j hwritten, ← hstop,
      elementAt_drop]

end Elements

/-- A function of two words acts on each pair of elements by itself. -/
def Lanewise (w : Width) (f : UInt64 → UInt64 → UInt64) (g : UInt32 → UInt32 → UInt32) : Prop :=
  ∀ (s d : UInt64) (i : Nat), w.bits * (i + 1) ≤ 64 →
    lane w (f s d).toNat i = g (lane w s.toNat i) (lane w d.toNat i)

section Combine

variable {f : UInt64 → UInt64 → UInt64} {g : UInt32 → UInt32 → UInt32} {a b : Bytes}

theorem length_zipWords (f : UInt64 → UInt64 → UInt64) (h : a.length = b.length) :
    (zipWords f (zipPadded f) a b).length = b.length := by
  fun_induction zipWords f (zipPadded f) a b with
  | case1 a b hwhole ih =>
    have hb := (isWhole_iff b).mp hwhole.2
    have hrest : (a.drop wordBytes).length = (b.drop wordBytes).length := by
      simp [h]
    rw [List.length_append, length_toBytes, ih hrest, List.length_drop]
    omega
  | case2 a b hshort => exact length_storeCut _ _

theorem exists_wordBytes_eq_mul (w : Width) : ∃ k, wordBytes = k * w.elementBytes := by
  cases w
  · exact ⟨8, rfl⟩
  · exact ⟨4, rfl⟩
  · exact ⟨2, rfl⟩

/-- Combining the first words of two buffers combines their elements there. -/
theorem Lanewise.lane_first (h : Lanewise w f g) {i : Nat}
    (hi : (i + 1) * w.elementBytes ≤ wordBytes) (a b : Bytes) :
    lane w (f (ofBytes (a.take wordBytes)) (ofBytes (b.take wordBytes))).toNat i =
      g (elementAt w a i) (elementAt w b i) := by
  rw [h _ _ i (lane_bits_le hi), lane_ofBytes a hi (le_refl wordBytes),
    lane_ofBytes b hi (le_refl wordBytes)]

/-- Combining buffers by words combines their elements. -/
theorem Lanewise.elementAt_zipWords (h : Lanewise w f g) (hlength : a.length = b.length) {i : Nat}
    (hi : (i + 1) * w.elementBytes ≤ b.length) :
    elementAt w (zipWords f (zipPadded f) a b) i = g (elementAt w a i) (elementAt w b i) := by
  obtain ⟨k, hk⟩ := exists_wordBytes_eq_mul w
  fun_induction zipWords f (zipPadded f) a b generalizing i with
  | case1 a b hwhole ih =>
    have hb := (isWhole_iff b).mp hwhole.2
    have hrest : (a.drop wordBytes).length = (b.drop wordBytes).length := by
      simp [hlength]
    by_cases hlow : i < k
    · have hfirst : (i + 1) * w.elementBytes ≤ wordBytes := by
        rw [hk]
        exact Nat.mul_le_mul_right _ hlow
      rw [elementAt_append_left _ (by rwa [length_toBytes]), elementAt_toBytes _ hfirst,
        h.lane_first hfirst]
    · obtain ⟨j, rfl⟩ := Nat.exists_eq_add_of_le (Nat.le_of_not_lt hlow)
      have hlater : (j + 1) * w.elementBytes ≤ (b.drop wordBytes).length := by
        have hsplit : (k + j + 1) * w.elementBytes = wordBytes + (j + 1) * w.elementBytes := by
          rw [hk]
          ring
        rw [List.length_drop]
        omega
      rw [elementAt_append_right _ _ (by rw [length_toBytes, hk]), ih hrest hlater, hk,
        elementAt_drop, elementAt_drop]
  | case2 a b hshort =>
    have hb : b.length < wordBytes := by
      rw [isWhole_iff, isWhole_iff, hlength, and_self] at hshort
      omega
    rw [zipPadded, storeCut_of_lt hb, elementAt_toBytes _ hi]
    exact h.lane_first (hi.trans hb.le) a b

end Combine

end Word

end ErasureField
