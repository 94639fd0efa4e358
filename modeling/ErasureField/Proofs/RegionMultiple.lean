import ErasureField.Proofs.Multiplier
import ErasureField.Proofs.RegionSum
import ErasureField.Region.Multiple

/-!
Multiples of regions, element by element. The constants zero and one have short cuts
without tables, every other constant goes by words with a padded end; in each case the
new elements are the products of the constant and the elements of the source, or the
sums of these and the old elements. What lies past the region stays as it was.
-/

namespace ErasureField

namespace Region

variable {m : Modulus} {t : TableSet} {constant : UInt32} {r : m.Residue} {src dst : Bytes}

structure IsMultiple (m : Modulus) (r : m.Residue) (accumulate : Bool)
    (src dst after : Bytes) : Prop where
  length : after.length = dst.length
  element : ∀ i, (i + 1) * m.width.elementBytes ≤ dst.length →
    ∃ p : UInt32, m.Represents p.toNat (r * m.residue (Word.elementAt m.width src i).toNat) ∧
      Word.elementAt m.width after i =
        if accumulate then Word.elementAt m.width dst i ^^^ p else p

theorem elementAt_zeros (w : Width) (bytes : Bytes) (i : Nat) :
    Word.elementAt w (zeros bytes) i = 0 :=
  Word.elementAt_replicate_zero w bytes.length i

theorem represents_elementAt (m : Modulus) (bytes : Bytes) (i : Nat) :
    m.Represents (Word.elementAt m.width bytes i).toNat
      (m.residue (Word.elementAt m.width bytes i).toNat) := by
  apply m.represents_residue
  rw [Word.elementAt_eq_lane]
  exact Word.lane_lt _ _ _

theorem isMultiple_zero (m : Modulus) (accumulate : Bool) (src dst : Bytes) :
    IsMultiple m 0 accumulate src dst (if accumulate then dst else zeros dst) := by
  constructor
  · cases accumulate <;> simp [zeros]
  · intro i _
    refine ⟨0, ?_, ?_⟩
    · rw [zero_mul]
      exact m.represents_zero
    · cases accumulate with
      | false => exact elementAt_zeros _ _ _
      | true => exact UInt32.xor_zero.symm

theorem isMultiple_one (m : Modulus) (accumulate : Bool) (hlength : src.length = dst.length) :
    IsMultiple m 1 accumulate src dst (if accumulate then sumBytes dst src else src) := by
  have hsum := sumBytes_eq hlength.symm
  constructor
  · cases accumulate with
    | false => exact hlength
    | true =>
      simp only [if_true]
      rw [hsum, List.length_zipWith, hlength, Nat.min_self]
  · intro i _
    refine ⟨Word.elementAt m.width src i, ?_, ?_⟩
    · rw [one_mul]
      exact represents_elementAt m src i
    · cases accumulate with
      | false => rfl
      | true =>
        simp only [if_true]
        rw [hsum]
        exact Word.elementAt_zipWith_xor hlength.symm m.width i

theorem isMultiple_apply {k : Multiplier} (h : k.Multiplies m r) (accumulate : Bool)
    (hlength : src.length = dst.length) :
    IsMultiple m r accumulate src dst (k.apply src dst accumulate) := by
  constructor
  · exact k.length_apply accumulate hlength
  · intro i hi
    exact ⟨_, h.represents_mul _, h.elementAt_apply accumulate hlength hi⟩

/-- Short cuts and tables agree on what a multiple is, and no table is read past its
end. -/
theorem multiple_isMultiple (h : t.Holds m) (hc : m.Represents constant.toNat r) (accumulate : Bool)
    (hlength : src.length = dst.length) :
    ∃ after, multiple t constant accumulate src dst = .ok after ∧
      IsMultiple m r accumulate src dst after := by
  by_cases hzero : constant = 0
  · subst hzero
    obtain rfl : 0 = r := m.residue_zero.symm.trans hc.residue_eq
    refine ⟨_, ?_, isMultiple_zero m accumulate src dst⟩
    rw [multiple, if_pos rfl]
  by_cases hone : constant = 1
  · subst hone
    obtain rfl : 1 = r := m.residue_one.symm.trans hc.residue_eq
    refine ⟨_, ?_, isMultiple_one m accumulate hlength⟩
    rw [multiple, if_neg hzero, if_pos rfl]
    cases accumulate with
    | false => rfl
    | true =>
      simp only [if_true, addInto, hlength, le_refl]
      rw [← hlength, List.take_length]
  · obtain ⟨k, hk, hmultiplies⟩ := Multiplier.ofConstant_multiplies h hc
    refine ⟨_, ?_, isMultiple_apply hmultiplies accumulate hlength⟩
    rw [multiple, if_neg hzero, if_neg hone, hk, Outcome.ok_bind, Outcome.pure_eq_ok]

/-- The elements of a multiple are the products that a field of the modulus gives. -/
theorem IsMultiple.element_mul {f : BinaryField} {after : Bytes} {accumulate : Bool}
    (h : IsMultiple m r accumulate src dst after) (hf : f.tables.Holds m)
    (hc : m.Represents constant.toNat r) {i : Nat}
    (hi : (i + 1) * m.width.elementBytes ≤ dst.length) :
    ∃ p, f.mul constant (Word.elementAt m.width src i) = .ok p ∧
      Word.elementAt m.width after i =
        if accumulate then Word.elementAt m.width dst i ^^^ p else p := by
  obtain ⟨p, hp, helement⟩ := h.element i hi
  have hproduct := BinaryField.gives_mul hf hc (represents_elementAt m src i)
  exact ⟨p, hproduct.eq_ok hp, helement⟩

section Step

variable {len : Nat}

theorem checkMultiple_ok {w : Width} (hc : constant.toNat ≤ w.order)
    (hlen : len % w.elementBytes = 0) (operation : String) :
    checkMultiple operation w constant len = .ok () := by
  rw [checkMultiple, Check.element_ok hc, Outcome.ok_bind,
    Check.multipleOf_ok w.elementBytes_pos.ne' hlen]

theorem checkMultiple_refused {w : Width} (hc : w.order < constant.toNat) (operation : String) :
    checkMultiple operation w constant len =
      .refuse operation (.invalidElement constant.toNat w) := by
  rw [checkMultiple, Check.element_refused hc]
  rfl

theorem checkMultiple_partial {w : Width} (hc : constant.toNat ≤ w.order)
    (hlen : len % w.elementBytes ≠ 0) (operation : String) :
    checkMultiple operation w constant len =
      .refuse operation (.invalidLength (.multipleOf w.elementBytes) len) := by
  rw [checkMultiple, Check.element_ok hc, Outcome.ok_bind,
    Check.multipleOf_refused w.elementBytes_pos.ne' hlen]

/-- Elements of the modulus and whole numbers of them pass with built tables. -/
theorem checkMultiple_holds (h : t.Holds m) (hc : m.Represents constant.toNat r)
    (hlen : len % m.width.elementBytes = 0) (operation : String) :
    checkMultiple operation t.width constant len = .ok () := by
  rw [h.width_eq, checkMultiple_ok (m.width.lt_two_pow_iff.mp hc.lt) hlen]

theorem multiply_on (h : t.Holds m) (hc : m.Represents constant.toNat r)
    (hlen : len % m.width.elementBytes = 0) (hsrc : len ≤ src.length) (hdst : len ≤ dst.length)
    (accumulate : Bool) :
    (multiply t src constant len accumulate).on dst =
      (onPrefix len fun region => multiple t constant accumulate (src.take len) region).on dst := by
  simp only [multiply, Step.on_bind, Step.on_lift, checkMultiple_holds h hc hlen,
    Check.minLength_ok hsrc, Step.on_get, Check.minLength_ok hdst]

/-- Multiplying a whole source into a whole destination. -/
theorem multiply_whole_on (h : t.Holds m) (hc : m.Represents constant.toNat r)
    (hlen : len % m.width.elementBytes = 0) (hsrc : src.length = len) (hdst : dst.length = len)
    (accumulate : Bool) :
    ∃ after, (multiply t src constant len accumulate).on dst = (.ok (), after) ∧
      IsMultiple m r accumulate src dst after := by
  obtain ⟨after, hafter, hmultiple⟩ :=
    multiple_isMultiple h hc accumulate (hsrc.trans hdst.symm)
  rw [← List.take_of_length_le hsrc.le, ← List.take_of_length_le hdst.le] at hafter
  refine ⟨after, ?_, hmultiple⟩
  rw [multiply_on h hc hlen hsrc.ge hdst.ge, onPrefix_ok hafter,
    List.drop_eq_nil_of_le hdst.le, List.append_nil]

/-- What the check of the constant and the length refuses is refused before a byte is
written. -/
theorem multiply_of_check_error {failure : Failure}
    (hcheck : checkMultiple "region_multiply" t.width constant len = .error failure)
    (src dst : Bytes) (accumulate : Bool) :
    (multiply t src constant len accumulate).on dst = (.error failure, dst) := by
  simp only [multiply, Step.on_bind, Step.on_lift, hcheck]

/-- A constant that is no element is refused. -/
theorem multiply_refused (hc : t.width.order < constant.toNat) (src dst : Bytes) (len : Nat)
    (accumulate : Bool) :
    (multiply t src constant len accumulate).on dst =
      (.refuse "region_multiply" (.invalidElement constant.toNat t.width), dst) :=
  multiply_of_check_error (checkMultiple_refused hc _) src dst accumulate

end Step

end Region

namespace BinaryField

/-- Multiplying a region multiplies its elements. For a constant of the field, a length of
whole elements and buffers that have it, the step succeeds; each element of the region is
then the product of the constant and the element of the source, added to the old element
or put in its place, and nothing past the region has changed. -/
theorem multiplyRegion_elements {f : BinaryField} {m : Modulus} {constant : UInt32} {len : Nat}
    {src dst : Bytes} (h : TableSet.build m = .ok f.tables)
    (hc : constant.toNat ≤ 2 ^ m.width.bits - 1) (hlen : len % m.width.elementBytes = 0)
    (hsrc : len ≤ src.length) (hdst : len ≤ dst.length) (accumulate : Bool) :
    ∃ after, (f.multiplyRegion src constant len accumulate).on dst = (.ok (), after) ∧
      after.length = dst.length ∧ after.drop len = dst.drop len ∧
      ∀ i, (i + 1) * m.width.elementBytes ≤ len →
        ∃ p, f.mul constant (Word.elementAt m.width src i) = .ok p ∧
          Word.elementAt m.width after i =
            if accumulate then Word.elementAt m.width dst i ^^^ p else p := by
  have hholds := TableSet.holds_of_build h
  rw [← Width.order_eq] at hc
  have hrc := m.represents_residue (m.width.lt_two_pow_iff.mpr hc)
  have htaken : (dst.take len).length = len := List.length_take_of_le hdst
  have hlength : (src.take len).length = (dst.take len).length := by
    rw [htaken, List.length_take_of_le hsrc]
  obtain ⟨changed, hchanged, hmultiple⟩ := Region.multiple_isMultiple hholds hrc accumulate hlength
  have hregion : changed.length = len := hmultiple.length.trans htaken
  refine ⟨changed ++ dst.drop len, ?_, ?_, ?_, ?_⟩
  · rw [multiplyRegion, Region.multiply_on hholds hrc hlen hsrc hdst]
    exact Region.onPrefix_ok hchanged
  · rw [List.length_append, hregion, List.length_drop]
    omega
  · rw [← hregion, List.drop_left]
  · intro i hi
    obtain ⟨p, hp, helement⟩ := hmultiple.element i (by rwa [htaken])
    rw [Word.elementAt_take src hi] at hp
    rw [Word.elementAt_take dst hi] at helement
    refine ⟨p, ?_, ?_⟩
    · have hproduct := gives_mul hholds hrc (Region.represents_elementAt m src i)
      exact hproduct.unique (Modulus.gives_ok hp)
    · rw [Word.elementAt_append_left _ (by rwa [hregion]), helement]

/-- Five elements of width 16, of which the last is in a padded word, and a byte after
them. -/
theorem multiplyRegion_elements_w16 :
    ∃ f : BinaryField, TableSet.build (Modulus.ofWidth .w16) = .ok f.tables ∧
      ∃ after, (f.multiplyRegion [1, 2, 3, 4, 5, 6, 7, 8, 9, 10] 0x1234 10 true).on
          [11, 12, 13, 14, 15, 16, 17, 18, 19, 20, 21] = (.ok (), after) ∧
        after.drop 10 = [21] ∧
        ∃ p, f.mul 0x1234 0x0A09 = .ok p ∧ Word.elementAt .w16 after 4 = 0x1413 ^^^ p := by
  obtain ⟨t, hbuild, _⟩ := TableSet.build_of_admissible (Modulus.admissible_ofWidth .w16)
  let src : Bytes := [1, 2, 3, 4, 5, 6, 7, 8, 9, 10]
  let dst : Bytes := [11, 12, 13, 14, 15, 16, 17, 18, 19, 20, 21]
  have hc : (0x1234 : UInt32).toNat ≤ 2 ^ Width.w16.bits - 1 := by decide
  have hlen : 10 % Width.w16.elementBytes = 0 := rfl
  have hsrc : 10 ≤ src.length := le_refl 10
  have hdst : 10 ≤ dst.length := Nat.le_succ 10
  obtain ⟨after, hrun, _, hrest, helements⟩ :=
    multiplyRegion_elements (f := ⟨⟨0, t⟩⟩) hbuild hc hlen hsrc hdst true
  exact ⟨⟨⟨0, t⟩⟩, hbuild, after, hrun, hrest, helements 4 (by decide)⟩

end BinaryField

end ErasureField
