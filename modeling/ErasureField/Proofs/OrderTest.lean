import ErasureField.Proofs.WalkOutcome

/-!
The order test and the walk. Square and multiply gives the power that multiplying by `x` step
after step reaches, so the few powers that the order test looks at are powers that the walk goes
through. Both ask for the order of `x`: the walk by going around once, the test because an
order that divides `2^w - 1` and none of its quotients by a prime is all of it.
-/

namespace ErasureField

theorem shiftAdd_zero (double : UInt64 → UInt64) (n : Nat) (a : UInt64) :
    shiftAdd double n a 0 = 0 := by
  induction n generalizing a with
  | zero => rfl
  | succ n ih =>
    show (0 : UInt64) ^^^ shiftAdd double n (double a) 0 = 0
    rw [ih, UInt64.xor_zero]

namespace Modulus

variable {m : Modulus}

/-- A product with the generator is a step of the walk, whatever the polynomial. -/
theorem mul_generator (m : Modulus) (a : UInt64) : m.mul a 2 = m.timesX a := by
  show 0 ^^^ (m.timesX a ^^^ shiftAdd m.timesX 62 (m.timesX (m.timesX a)) 0) = m.timesX a
  rw [shiftAdd_zero, UInt64.xor_zero, UInt64.zero_xor]

theorem xPower_eq_iterate (m : Modulus) (e : Nat) : m.xPower e = m.timesX^[e] 1 := by
  induction e with
  | zero => rfl
  | succ e ih => rw [xPower_succ, ih, Function.iterate_succ_apply']

/-- Square and multiply from the generator reaches the power that the walk reaches. -/
theorem HasDegree.pow_two_eq_xPower (h : m.HasDegree) (e : Nat) : m.pow 2 e = m.xPower e := by
  have hgenerator : m.Represents (2 : UInt64).toNat m.x := m.represents_two
  have hpower := h.represents_pow hgenerator e
  exact UInt64.toNat_inj.mp (hpower.unique (h.represents_xPower e))

end Modulus

namespace Logarithms

variable {m : Modulus}

/-- A walk succeeds when `x` has as many powers as there are nonzero elements. -/
theorem build_succeeds_iff (T : Type) [StoredWord T] (h : m.HasDegree) :
    (∃ t, build T m = .ok t) ↔ orderOf m.x = m.width.order := by
  constructor
  · rintro ⟨t, hbuild⟩
    by_contra hne
    obtain ⟨why, hrefused⟩ := build_misconfigured (T := T) h hne
    cases hbuild.symm.trans hrefused
  · intro horder
    obtain ⟨_, _, hbuild⟩ := build_eq_ok (T := T) h horder
    exact ⟨_, hbuild⟩

end Logarithms

namespace Modulus

variable {m : Modulus}

/-- For a polynomial of the right shape, the order test is passed if and only if the walk can
be carried out, in any word that entries are stored in. Powers of the generator by square and
multiply are those that multiplying by `x` reaches from one, for all exponents, and each step
is a product with the generator. -/
theorem order_test_agrees_with_walk (h : m.checkShape = .ok ()) :
    (∀ (T : Type) [StoredWord T],
      m.isPrimitive = true ↔ ∃ t : Logarithms T, Logarithms.build T m = .ok t) ∧
    (∀ e, m.pow 2 e = m.timesX^[e] 1) ∧
    ∀ a, m.mul a 2 = m.timesX a := by
  obtain ⟨hdegree, _⟩ := checkShape_eq_ok_iff.mp h
  refine ⟨?_, ?_, m.mul_generator⟩
  · intro T _
    rw [hdegree.isPrimitive_iff, Logarithms.build_succeeds_iff T hdegree]
  · intro e
    rw [hdegree.pow_two_eq_xPower, xPower_eq_iterate]

/-- A polynomial of width 8 that is irreducible without being primitive, and a primitive one. -/
theorem order_test_agrees_with_walk_w8 :
    (¬ ∃ t, Logarithms.build UInt8 ⟨.w8, 0x11B⟩ = .ok t) ∧
    (∃ t, Logarithms.build UInt8 ⟨.w8, 0x12B⟩ = .ok t) ∧
    (Modulus.timesX ⟨.w8, 0x11B⟩)^[51] 1 = 1 := by
  have hirreducible : Modulus.checkShape ⟨.w8, 0x11B⟩ = .ok () := rfl
  have hprimitive : Modulus.checkShape ⟨.w8, 0x12B⟩ = .ok () := rfl
  obtain ⟨hrefused, hpower, _⟩ := order_test_agrees_with_walk hirreducible
  obtain ⟨haccepted, _, _⟩ := order_test_agrees_with_walk hprimitive
  refine ⟨?_, ?_, ?_⟩
  · rw [← hrefused UInt8]
    decide +kernel
  · rw [← haccepted UInt8]
    decide +kernel
  · rw [← hpower]
    decide +kernel

end Modulus

end ErasureField
