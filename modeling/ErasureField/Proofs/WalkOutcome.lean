import ErasureField.Proofs.TableSet
import Mathlib.Data.Nat.Bitwise

/-!
How the walk over the powers of `x` ends when nothing has been asked of the polynomial.
Below the width a power of `x` is one bit, whatever the polynomial is, so the first power
to be reduced is that with the width as its exponent. If the polynomial does not have the
degree of the width, this power is no element and the walk breaks off there. Otherwise all
powers are elements, and the order of `x` decides: without a constant term there is none
and the walk stays open, and an order that is too small closes it early.
-/

namespace ErasureField

open Polynomial

namespace Modulus

variable {m : Modulus}

theorem toNat_xPower_of_lt (m : Modulus) {i : Nat} (hi : i < m.width.bits) :
    (m.xPower i).toNat = 2 ^ i := by
  have hbits := m.width.bits_le
  induction i with
  | zero => rfl
  | succ i ih =>
    have hshift : (m.xPower i).toNat <<< 1 = 2 ^ (i + 1) := by
      rw [ih (by omega), Nat.shiftLeft_eq, ← pow_add]
    have hstays : (2 ^ (i + 1)).testBit m.width.bits = false :=
      Nat.testBit_two_pow_of_ne (by omega)
    have hword : 2 ^ (i + 1) < 2 ^ 64 := Nat.pow_lt_pow_right (by omega) (by omega)
    rw [xPower_succ, toNat_timesX, hshift, hstays, Nat.mod_eq_of_lt hword]
    rfl

/-- The leading term of the width is the first to be replaced. -/
theorem toNat_xPower_bits (m : Modulus) :
    (m.xPower m.width.bits).toNat = 2 ^ m.width.bits ^^^ m.polynomial.toNat := by
  have hone := m.width.one_lt_bits
  have hbits := m.width.bits_le
  obtain ⟨k, hk⟩ : ∃ k, m.width.bits = k + 1 := ⟨m.width.bits - 1, by omega⟩
  have hshift : (m.xPower k).toNat <<< 1 = 2 ^ m.width.bits := by
    rw [m.toNat_xPower_of_lt (by omega), Nat.shiftLeft_eq, ← pow_add, hk]
  have hleaves : (2 ^ m.width.bits).testBit m.width.bits = true := Nat.testBit_two_pow_self
  have hword : 2 ^ m.width.bits < 2 ^ 64 := Nat.pow_lt_pow_right (by omega) (by omega)
  have hlast : m.xPower m.width.bits = m.timesX (m.xPower k) := by
    rw [hk, xPower_succ]
  rw [hlast, toNat_timesX, hshift, hleaves, Nat.mod_eq_of_lt hword]
  rfl

/-- The power that replaces it is no element, unless the polynomial takes the leading term
away and has no term above it. -/
theorem order_lt_xPower_bits (h : ¬ m.HasDegree) :
    m.width.order < (m.xPower m.width.bits).toNat := by
  by_contra hle
  have hsmall : 2 ^ m.width.bits ^^^ m.polynomial.toNat < 2 ^ m.width.bits := by
    rw [m.width.lt_two_pow_iff, ← toNat_xPower_bits]
    omega
  have hhigh : (2 ^ m.width.bits ^^^ m.polynomial.toNat) >>> m.width.bits = 0 := by
    rw [Nat.shiftRight_eq_div_pow, Nat.div_eq_of_lt hsmall]
  have hleading : (2 ^ m.width.bits) >>> m.width.bits = 1 := by
    rw [Nat.shiftRight_eq_div_pow, Nat.div_self (Nat.two_pow_pos _)]
  rw [Nat.shiftRight_xor_distrib, hleading] at hhigh
  exact h (hasDegree_iff.mpr (Nat.eq_of_xor_eq_zero hhigh).symm)

end Modulus

namespace Misconfiguration

theorem message_openCycle (m : Modulus) : (openCycle m).message =
    "0x2^" ++ toString (2 ^ m.width.bits - 1) ++ " != 1 modulo " ++
      Text.hex m.polynomial.toNat := by
  have hgenerator : Text.hex generator.toNat ++ "^" = "0x2^" := by decide
  rw [← Width.order_eq, ← hgenerator]
  rfl

theorem message_shortCycle (m : Modulus) (k : Nat) : (shortCycle m k).message =
    "powers of 0x2 cycle after " ++ toString k ++ " steps modulo " ++
      Text.hex m.polynomial.toNat ++ "; " ++ m.width.name ++ " requires " ++
      toString (2 ^ m.width.bits - 1) := by
  have hgenerator : "powers of " ++ Text.hex generator.toNat ++ " cycle after " =
      "powers of 0x2 cycle after " := by decide
  rw [← Width.order_eq, ← hgenerator]
  rfl

end Misconfiguration

namespace Logarithms

variable {T : Type} [StoredWord T] {m : Modulus}

open PowerWalk

/-- The walk around a polynomial of another degree breaks off where the first power is
reduced. -/
theorem build_fault (h : ¬ m.HasDegree) : build T m = .fault .indexPastTable := by
  have hbits : m.width.bits < m.width.order := by
    cases m.width <;> decide
  have hreturn : ∀ i < m.width.bits, ¬ (0 < i ∧ m.xPower i = 1) := by
    rintro i hi ⟨hpos, hone⟩
    have hpower := m.toNat_xPower_of_lt hi
    rw [hone, UInt64.toNat_one] at hpower
    have hlt : 1 < 2 ^ i := Nat.one_lt_two_pow hpos.ne'
    omega
  have htable : ∀ i < m.width.bits, (m.xPower i).toNat ≤ m.width.order := by
    intro i hi
    rw [m.toNat_xPower_of_lt hi, ← m.width.lt_two_pow_iff]
    exact Nat.pow_lt_pow_right (by omega) hi
  obtain ⟨walk, hrun, hafter⟩ := run_after (T := T) m m.width.bits hreturn htable
  have hpast := Modulus.order_lt_xPower_bits h
  have hnotOne : m.xPower m.width.bits ≠ 1 := by
    intro hone
    rw [hone, UInt64.toNat_one] at hpast
    have := m.width.one_lt_bits
    omega
  have hstep : walk.step m m.width.bits = .fault .indexPastTable := by
    rw [PowerWalk.step, hafter.power, if_neg fun hback => hnotOne hback.2, hafter.log_size,
      if_neg (by omega)]
  rw [build, run_error hrun hstep hbits]
  rfl

/-- A walk that meets no power of `x` that is one a second time. -/
theorem build_of_even (h : m.HasDegree) (heven : m.polynomial &&& 1 = 0) :
    build T m = .misconfigured "log table construction" (.openCycle m) := by
  apply build_openCycle h
  by_contra hne
  have hodd := h.orderOf_x_pos_iff.mp (Nat.pos_of_ne_zero hne)
  rw [heven] at hodd
  cases hodd

/-- A walk that ends by the least power of `x` that is one. -/
theorem build_of_odd (h : m.HasDegree) (hodd : m.polynomial &&& 1 = 1) :
    ∃ k, IsLeast {k | 1 ≤ k ∧ m.poly ∣ X ^ k - 1} k ∧
      (k < m.width.order ∧
          build T m = .misconfigured "log table construction" (.shortCycle m k) ∨
        k = m.width.order ∧ ∃ t, build T m = .ok t) := by
  have hpos := h.orderOf_x_pos_iff.mpr hodd
  refine ⟨orderOf m.x, (h.isLeast_iff hpos).mpr rfl, ?_⟩
  rcases Nat.lt_or_eq_of_le m.orderOf_x_le with hshort | hwhole
  · exact Or.inl ⟨hshort, build_shortCycle h hpos hshort⟩
  · obtain ⟨_, _, hbuild⟩ := build_eq_ok (T := T) h hwhole
    exact Or.inr ⟨hwhole, _, hbuild⟩

/-- How the construction of tables ends, for any polynomial and any word that entries are
stored in. It breaks off if and only if the degree is not the width. Otherwise the walk
stays open without a constant term, and with one it ends as the least power of `x` that is
one says: too early, which is refused, or after all nonzero elements. So an open walk is
never the reason once the shape has been checked. -/
theorem build_ends (T : Type) [StoredWord T] (m : Modulus) :
    (build T m = .fault .indexPastTable ↔
      m.polynomial >>> UInt64.ofNat m.width.bits ≠ 1) ∧
    (m.polynomial >>> UInt64.ofNat m.width.bits = 1 → m.polynomial &&& 1 = 0 →
      build T m = .misconfigured "log table construction" (.openCycle m)) ∧
    (m.polynomial >>> UInt64.ofNat m.width.bits = 1 → m.polynomial &&& 1 = 1 →
      ∃ k, IsLeast {k | 1 ≤ k ∧ m.poly ∣ X ^ k - 1} k ∧
        (k < 2 ^ m.width.bits - 1 ∧
            build T m = .misconfigured "log table construction" (.shortCycle m k) ∨
          k = 2 ^ m.width.bits - 1 ∧ ∃ t, build T m = .ok t)) ∧
    (m.checkShape = .ok () →
      build T m ≠ .misconfigured "log table construction" (.openCycle m)) ∧
    (Misconfiguration.openCycle m).message =
      "0x2^" ++ toString (2 ^ m.width.bits - 1) ++ " != 1 modulo " ++
        Text.hex m.polynomial.toNat ∧
    ∀ k, (Misconfiguration.shortCycle m k).message =
      "powers of 0x2 cycle after " ++ toString k ++ " steps modulo " ++
        Text.hex m.polynomial.toNat ++ "; " ++ m.width.name ++ " requires " ++
        toString (2 ^ m.width.bits - 1) := by
  refine ⟨?_, fun h => build_of_even h, ?_, ?_, Misconfiguration.message_openCycle m,
    Misconfiguration.message_shortCycle m⟩
  · constructor
    · intro hfault h
      rcases and_one_eq_zero_or_one m.polynomial with heven | hodd
      · rw [build_of_even h heven] at hfault
        cases hfault
      · obtain ⟨k, _, ⟨_, hbuild⟩ | ⟨_, t, hbuild⟩⟩ := build_of_odd (T := T) h hodd <;>
          rw [hbuild] at hfault <;> cases hfault
    · exact build_fault
  · intro h hodd
    rw [← Width.order_eq]
    exact build_of_odd h hodd
  · intro hshape hopen
    obtain ⟨h, hodd⟩ := Modulus.checkShape_eq_ok_iff.mp hshape
    obtain ⟨k, _, ⟨_, hbuild⟩ | ⟨_, t, hbuild⟩⟩ := build_of_odd (T := T) h hodd <;>
      rw [hbuild] at hopen <;> cases hopen

end Logarithms

end ErasureField
