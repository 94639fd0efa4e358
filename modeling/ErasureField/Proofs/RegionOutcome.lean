import ErasureField.Proofs.RegionInPlace

/-!
How multiplying a region ends, whatever the constant, the length and the buffers are. The
constant is checked first, then the length, and then the buffers in the order in which they
stand; the first of these that will not do decides the error, and the destination is as it
was. Where all will do, the multiplication succeeds: no slice is too short for what is read
and written in it, and no table is read past its end. The constants zero and one have short
cuts after the checks, not around them.
-/

namespace ErasureField

namespace Region

/-- The error for the first that will not do: a constant that is no element, a length that is
no number of whole elements, or a buffer that is too short for it. -/
def refusal? (operation : String) (w : Width) (constant : UInt32) (len : Nat)
    (buffers : List (String × Nat)) : Option Error :=
  if 2 ^ w.bits - 1 < constant.toNat then
    some ⟨operation, .invalidElement constant.toNat w⟩
  else if len % w.elementBytes ≠ 0 then
    some ⟨operation, .invalidLength (.multipleOf w.elementBytes) len⟩
  else shortBuffer? len buffers

section Checks

variable {operation : String} {w : Width} {constant : UInt32} {len : Nat}
  {buffers : List (String × Nat)}

theorem refusal?_of_foreign (hc : 2 ^ w.bits - 1 < constant.toNat) :
    refusal? operation w constant len buffers =
      some ⟨operation, .invalidElement constant.toNat w⟩ :=
  if_pos hc

theorem refusal?_of_partial (hc : constant.toNat ≤ 2 ^ w.bits - 1)
    (hlen : len % w.elementBytes ≠ 0) : refusal? operation w constant len buffers =
      some ⟨operation, .invalidLength (.multipleOf w.elementBytes) len⟩ := by
  rw [refusal?, if_neg (Nat.not_lt_of_le hc), if_pos hlen]

theorem refusal?_of_whole (hc : constant.toNat ≤ 2 ^ w.bits - 1)
    (hlen : len % w.elementBytes = 0) :
    refusal? operation w constant len buffers = shortBuffer? len buffers := by
  rw [refusal?, if_neg (Nat.not_lt_of_le hc), if_neg (not_not.mpr hlen)]

theorem refusal?_ne_none_iff : refusal? operation w constant len buffers ≠ none ↔
    2 ^ w.bits - 1 < constant.toNat ∨ len % w.elementBytes ≠ 0 ∨
      ∃ buffer ∈ buffers, buffer.2 < len := by
  rcases Nat.lt_or_ge (2 ^ w.bits - 1) constant.toNat with hforeign | hc
  · simp [refusal?_of_foreign hforeign, hforeign]
  by_cases hlen : len % w.elementBytes = 0
  · rw [refusal?_of_whole hc hlen, Ne, shortBuffer?_eq_none_iff]
    simp [hlen, Nat.not_lt_of_le hc]
  · simp [refusal?_of_partial hc hlen, hlen]

/-- A step that succeeds for a constant, a length and buffers that will do is refused for the
first of these that will not. -/
theorem afterChecks_endsBy {σ : Type} {step : Step σ Unit} {state : σ}
    (h : constant.toNat ≤ w.order → len % w.elementBytes = 0 →
      (∀ buffer ∈ buffers, len ≤ buffer.2) → ∃ after, step.on state = (.ok (), after)) :
    Step.EndsBy (do checkMultiple operation w constant len; afterLengths len buffers step) state
      (refusal? operation w constant len buffers) := by
  rcases Nat.lt_or_ge w.order constant.toNat with hforeign | hc
  · rw [checkMultiple_refused hforeign]
    rw [Width.order_eq] at hforeign
    rw [refusal?_of_foreign hforeign]
    rfl
  by_cases hlen : len % w.elementBytes = 0
  · have hlengths := afterLengths_endsBy (h hc hlen)
    rw [checkMultiple_ok hc hlen]
    rw [Width.order_eq] at hc
    rw [refusal?_of_whole hc hlen]
    exact hlengths.congr rfl
  · rw [checkMultiple_partial hc hlen]
    rw [Width.order_eq] at hc
    rw [refusal?_of_partial hc hlen]
    rfl

end Checks

section Multiply

variable {m : Modulus} {t : TableSet}

theorem multiply_endsBy (h : t.Holds m) (src dst : Bytes) (constant : UInt32) (len : Nat)
    (accumulate : Bool) :
    (multiply t src constant len accumulate).EndsBy dst
      (refusal? "region_multiply" m.width constant len
        [("region_multiply: src", src.length), ("region_multiply: dst", dst.length)]) := by
  have hchecked : (multiply t src constant len accumulate).on dst =
      Step.on (do
        checkMultiple "region_multiply" m.width constant len
        afterLengths len
          [("region_multiply: src", src.length), ("region_multiply: dst", dst.length)]
          (onPrefix len fun region =>
            multiple t constant accumulate (src.take len) region)) dst := by
    simp only [multiply, h.width_eq, afterLengths, List.foldr, Step.on_lift_bind, Step.on_get_bind]
  refine Step.EndsBy.congr (afterChecks_endsBy ?_) hchecked
  intro hc hlen hall
  obtain ⟨hsrc, hdst⟩ : len ≤ src.length ∧ len ≤ dst.length := by
    simpa using hall
  have hlength : (src.take len).length = (dst.take len).length := by
    simp [hsrc, hdst]
  obtain ⟨changed, hchanged, _⟩ :=
    multiple_isMultiple h (m.represents_of_le_order hc) accumulate hlength
  exact ⟨_, onPrefix_ok hchanged⟩

theorem multiplyInPlace_endsBy (h : t.Holds m) (bytes : Bytes) (constant : UInt32) (len : Nat)
    (accumulate : Bool) :
    (multiplyInPlace t constant len accumulate).EndsBy bytes
      (refusal? "region_multiply_in_place" m.width constant len
        [("region_multiply_in_place: buf", bytes.length)]) := by
  have hchecked : (multiplyInPlace t constant len accumulate).on bytes =
      Step.on (do
        checkMultiple "region_multiply_in_place" m.width constant len
        afterLengths len [("region_multiply_in_place: buf", bytes.length)]
          (onPrefix len fun region => multipleInPlace t constant accumulate region)) bytes := by
    simp only [multiplyInPlace, h.width_eq, afterLengths, List.foldr, Step.on_lift_bind,
      Step.on_get_bind]
  refine Step.EndsBy.congr (afterChecks_endsBy ?_) hchecked
  intro hc _ _
  obtain ⟨changed, hchanged, _⟩ :=
    multipleInPlace_isMultiple h (m.represents_of_le_order hc) accumulate (bytes.take len)
  exact ⟨_, onPrefix_ok hchanged⟩

end Multiply

end Region

namespace BinaryField

/-- Multiplying a region ends with the error for the first of the constant, the length and
the buffers that will not do, and then leaves the destination as it was, or it succeeds. So
it fails for exactly the constants that are no elements, the lengths of no whole number of
elements and the buffers that are too short, and it never breaks off. -/
theorem region_multiplication_ends {f : BinaryField} {m : Modulus}
    (h : TableSet.build m = .ok f.tables) (src dst : Bytes) (constant : UInt32) (len : Nat)
    (accumulate : Bool) :
    (f.multiplyRegion src constant len accumulate).EndsBy dst
      (Region.refusal? "region_multiply" m.width constant len
        [("region_multiply: src", src.length), ("region_multiply: dst", dst.length)]) ∧
    ((∃ failure after,
        (f.multiplyRegion src constant len accumulate).on dst = (.error failure, after)) ↔
      2 ^ m.width.bits - 1 < constant.toNat ∨ len % m.width.elementBytes ≠ 0 ∨
        src.length < len ∨ dst.length < len) ∧
    (f.multiplyRegionInPlace constant len accumulate).EndsBy dst
      (Region.refusal? "region_multiply_in_place" m.width constant len
        [("region_multiply_in_place: buf", dst.length)]) ∧
    ((∃ failure after,
        (f.multiplyRegionInPlace constant len accumulate).on dst = (.error failure, after)) ↔
      2 ^ m.width.bits - 1 < constant.toNat ∨ len % m.width.elementBytes ≠ 0 ∨
        dst.length < len) := by
  have hholds := TableSet.holds_of_build h
  have hmultiply : (f.multiplyRegion src constant len accumulate).EndsBy dst _ :=
    Region.multiply_endsBy hholds src dst constant len accumulate
  have hinPlace : (f.multiplyRegionInPlace constant len accumulate).EndsBy dst _ :=
    Region.multiplyInPlace_endsBy hholds dst constant len accumulate
  refine ⟨hmultiply, ?_, hinPlace, ?_⟩
  · rw [hmultiply.fails_iff, Region.refusal?_ne_none_iff]
    simp
  · rw [hinPlace.fails_iff, Region.refusal?_ne_none_iff]
    simp

/-- In a field of width 16, where everything is wrong and the constant is named, where the
constant is zero and the source too short, and where nothing is wrong. -/
theorem region_multiplication_ends_w16 :
    ∃ f : BinaryField, TableSet.build (Modulus.ofWidth .w16) = .ok f.tables ∧
      (f.multiplyRegion [] 0x10000 3 true).on [1, 2] =
        (.refuse "region_multiply" (.invalidElement 0x10000 .w16), [1, 2]) ∧
      (f.multiplyRegion [1, 2] 0 4 false).on [3, 4] =
        (.refuse "region_multiply: src" (.invalidLength (.atLeast 4) 2), [3, 4]) ∧
      (f.multiplyRegionInPlace 1 3 false).on [1, 2] =
        (.refuse "region_multiply_in_place" (.invalidLength (.multipleOf 2) 3), [1, 2]) ∧
      ∃ after, (f.multiplyRegion [1, 2, 3] 0x1234 2 true).on [4, 5, 6] = (.ok (), after) := by
  obtain ⟨t, hbuild, _⟩ := TableSet.build_of_admissible (Modulus.admissible_ofWidth .w16)
  exact ⟨⟨⟨0, t⟩⟩, hbuild,
    (region_multiplication_ends (f := ⟨⟨0, t⟩⟩) hbuild [] [1, 2] 0x10000 3 true).1,
    (region_multiplication_ends (f := ⟨⟨0, t⟩⟩) hbuild [1, 2] [3, 4] 0 4 false).1,
    (region_multiplication_ends (f := ⟨⟨0, t⟩⟩) hbuild [] [1, 2] 1 3 false).2.2.1,
    (region_multiplication_ends (f := ⟨⟨0, t⟩⟩) hbuild [1, 2, 3] [4, 5, 6] 0x1234 2 true).1⟩

end BinaryField

end ErasureField
