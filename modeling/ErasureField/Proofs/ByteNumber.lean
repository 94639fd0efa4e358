import ErasureField.Region.Sum
import Mathlib.Data.Nat.Digits.Defs

/-!
Byte strings as numbers. The bytes are the digits in base 256, the lowest first, so
taking bytes is a remainder, dropping them a quotient, and byte strings of one length
are told apart by their numbers. A word that is loaded or stored is the number of its
bytes, and the sum of two regions, made by words and then by bytes, is their byte by
byte sum.
-/

namespace ErasureField

namespace Word

/-- The number whose digits in base 256 are the bytes, the lowest first. -/
def number (bytes : Bytes) : Nat := Nat.ofDigits 256 (bytes.map UInt8.toNat)

theorem two_pow_eight_mul (n : Nat) : 2 ^ (8 * n) = 256 ^ n := pow_mul 2 8 n

theorem digit_lt (bytes : Bytes) : ∀ digit ∈ bytes.map UInt8.toNat, digit < 256 := by
  intro digit hdigit
  obtain ⟨b, _, rfl⟩ := List.mem_map.mp hdigit
  exact b.toNat_lt

theorem number_cons (b : UInt8) (rest : Bytes) :
    number (b :: rest) = b.toNat + 256 * number rest :=
  Nat.ofDigits_cons

theorem number_take (n : Nat) (bytes : Bytes) :
    number (bytes.take n) = number bytes % 2 ^ (8 * n) := by
  rw [two_pow_eight_mul, number, number, List.map_take]
  exact (Nat.ofDigits_mod_pow_eq_ofDigits_take n (by omega) _ (digit_lt bytes)).symm

theorem number_drop (n : Nat) (bytes : Bytes) :
    number (bytes.drop n) = number bytes >>> (8 * n) := by
  rw [Nat.shiftRight_eq_div_pow, two_pow_eight_mul, number, number, List.map_drop]
  exact (Nat.ofDigits_div_pow_eq_ofDigits_drop n (by omega) _ (digit_lt bytes)).symm

theorem number_replicate_zero (n : Nat) : number (List.replicate n 0) = 0 := by
  simp [number]

theorem number_append_zeros (bytes : Bytes) (n : Nat) :
    number (bytes ++ List.replicate n 0) = number bytes := by
  rw [number, number, List.map_append, List.map_replicate, UInt8.toNat_zero,
    Nat.ofDigits_append_replicate_zero]

/-- Byte strings of one length are told apart by their numbers. -/
theorem number_inj {a b : Bytes} (hlength : a.length = b.length) (h : number a = number b) :
    a = b := by
  have hdigits : a.map UInt8.toNat = b.map UInt8.toNat :=
    Nat.ofDigits_inj_of_len_eq (by omega) (by simpa using hlength) (digit_lt a) (digit_lt b) h
  exact (List.map_inj_right fun _ _ => UInt8.toNat_inj.mp).mp hdigits

/-- The sum byte by byte is the exclusive or of the numbers. -/
theorem number_zipWith_xor {a b : Bytes} (h : a.length = b.length) :
    number (List.zipWith (· ^^^ ·) a b) = number a ^^^ number b := by
  induction a generalizing b with
  | nil =>
    obtain rfl : b = [] := List.length_eq_zero_iff.mp h.symm
    rfl
  | cons x a ih =>
    obtain ⟨y, b, rfl⟩ := List.exists_cons_of_length_eq_add_one h.symm
    have hrest := ih (Nat.succ.inj h)
    have hlow (z : UInt8) (rest : Bytes) : number (z :: rest) % 2 ^ 8 = z.toNat := by
      have := z.toNat_lt
      rw [number_cons]
      omega
    have hhigh (z : UInt8) (rest : Bytes) : number (z :: rest) / 2 ^ 8 = number rest := by
      have := z.toNat_lt
      rw [number_cons]
      omega
    rw [List.zipWith_cons_cons, number_cons, hrest, UInt8.toNat_xor,
      ← Nat.mod_add_div (number (x :: a) ^^^ number (y :: b)) (2 ^ 8), Nat.xor_mod_two_pow,
      Nat.xor_div_two_pow, hlow, hlow, hhigh, hhigh]
    rfl

theorem zipWith_xor_zeros (bytes : Bytes) :
    List.zipWith (· ^^^ ·) bytes (List.replicate bytes.length 0) = bytes := by
  apply number_inj
  · simp
  · rw [number_zipWith_xor (by simp), number_replicate_zero, Nat.xor_zero]

/-- Adding to the first bytes adds to the number: the bytes after them have zeros added. -/
theorem number_add_take {src dst : Bytes} (h : src.length ≤ dst.length) :
    number (List.zipWith (· ^^^ ·) (dst.take src.length) src ++ dst.drop src.length) =
      number dst ^^^ number src := by
  let zeros : Bytes := List.replicate (dst.drop src.length).length 0
  have hfirst : (dst.take src.length).length = src.length := List.length_take_of_le h
  have hlength : dst.length = (src ++ zeros).length := by
    simp [zeros, h]
  have hwhole : List.zipWith (· ^^^ ·) (dst.take src.length) src ++ dst.drop src.length =
      List.zipWith (· ^^^ ·) dst (src ++ zeros) := by
    calc
      _ = List.zipWith (· ^^^ ·) (dst.take src.length) src ++
          List.zipWith (· ^^^ ·) (dst.drop src.length) zeros := by rw [zipWith_xor_zeros]
      _ = List.zipWith (· ^^^ ·) (dst.take src.length ++ dst.drop src.length) (src ++ zeros) :=
        (List.zipWith_append hfirst).symm
      _ = _ := by rw [List.take_append_drop]
  rw [hwhole, number_zipWith_xor hlength, number_append_zeros]

/-- A word made of bytes is their number, as far as a word has room for it. -/
theorem toNat_ofBytes (bytes : Bytes) : (ofBytes bytes).toNat = number bytes % 2 ^ 64 := by
  induction bytes with
  | nil => rfl
  | cons b rest ih =>
    have hb : b.toNat < 2 ^ 8 := b.toNat_lt
    have hmoved : (ofBytes rest <<< 8).toNat = (number rest % 2 ^ 56) <<< 8 := by
      rw [UInt64.toNat_shiftLeft, ih, Nat.shiftLeft_eq, Nat.shiftLeft_eq]
      simp only [UInt64.reduceToNat, Nat.reduceMod]
      omega
    rw [ofBytes, UInt64.toNat_or, UInt8.toNat_toUInt64, hmoved, Nat.or_comm,
      ← Nat.shiftLeft_add_eq_or_of_lt hb, number_cons, Nat.shiftLeft_eq]
    omega

theorem toNat_ofBytes_take (bytes : Bytes) {n : Nat} (h : n ≤ wordBytes) :
    (ofBytes (bytes.take n)).toNat = number bytes % 2 ^ (8 * n) := by
  unfold wordBytes at h
  have hle : 2 ^ (8 * n) ≤ 2 ^ 64 := Nat.pow_le_pow_right (by omega) (by omega)
  have hlt := Nat.mod_lt (number bytes) (Nat.two_pow_pos (8 * n))
  rw [toNat_ofBytes, number_take, Nat.mod_eq_of_lt (by omega)]

theorem number_toBytes (n : Nat) (word : UInt64) :
    number (toBytes n word) = word.toNat % 2 ^ (8 * n) := by
  induction n generalizing word with
  | zero =>
    rw [Nat.mul_zero, pow_zero, Nat.mod_one]
    rfl
  | succ n ih =>
    have hhigh : (word >>> 8).toNat = word.toNat / 256 := by
      simp [UInt64.toNat_shiftRight, Nat.shiftRight_eq_div_pow]
    have hlow : word.toUInt8.toNat = word.toNat % 256 := UInt64.toNat_toUInt8 word
    rw [toBytes, number_cons, ih, hhigh, hlow, two_pow_eight_mul, two_pow_eight_mul, pow_succ',
      Nat.mod_mul]

/-- A whole word is stored as it was loaded. -/
theorem toBytes_ofBytes_take {n : Nat} {bytes : Bytes} (h : n ≤ wordBytes) (hn : n ≤ bytes.length) :
    toBytes n (ofBytes (bytes.take n)) = bytes.take n := by
  apply number_inj
  · rw [length_toBytes, List.length_take, Nat.min_eq_left hn]
  · rw [number_toBytes, toNat_ofBytes_take bytes h, Nat.mod_mod, number_take]

theorem toBytes_xor (n : Nat) (x y : UInt64) :
    toBytes n (x ^^^ y) = List.zipWith (· ^^^ ·) (toBytes n x) (toBytes n y) := by
  apply number_inj
  · simp
  · rw [number_zipWith_xor (by simp), number_toBytes, number_toBytes, number_toBytes,
      UInt64.toNat_xor, Nat.xor_mod_two_pow]

end Word

namespace Region

theorem sumBytes_eq {a b : Bytes} (h : a.length = b.length) :
    sumBytes a b = List.zipWith (· ^^^ ·) a b := by
  unfold sumBytes
  fun_induction Word.zipWords (· ^^^ ·) (List.zipWith (· ^^^ ·)) a b with
  | case1 a b hwhole ih =>
    have ha := (Word.isWhole_iff a).mp hwhole.1
    have hb := (Word.isWhole_iff b).mp hwhole.2
    have hrest : (a.drop wordBytes).length = (b.drop wordBytes).length := by
      simp [h]
    have hword : (a.take wordBytes).length = (b.take wordBytes).length := by
      simp [h]
    rw [Word.toBytes_xor, Word.toBytes_ofBytes_take (le_refl wordBytes) ha,
      Word.toBytes_ofBytes_take (le_refl wordBytes) hb, ih hrest, ← List.zipWith_append hword,
      List.take_append_drop, List.take_append_drop]
  | case2 a b hshort => rfl

end Region

end ErasureField
