import ErasureField.Proofs.RegionMultiple

/-!
Regions multiplied in place. One buffer takes the part of source and destination there,
and words are read before they are written, so a region multiplied in place holds what it
would hold if a copy of it were the source. The short cuts agree with this as well: in
characteristic two, a region added to itself is zero. So do the refusals, which differ in
the name of the operation and in nothing else.
-/

namespace ErasureField

namespace Word

/-- Mapping a buffer by words is combining it with itself. -/
theorem mapWords_eq_zipWords (f : UInt64 → UInt64 → UInt64) (bytes : Bytes) :
    mapWords (fun word => f word word) bytes = zipWords f (zipPadded f) bytes bytes := by
  fun_induction mapWords (fun word => f word word) bytes with
  | case1 bytes hwhole ih =>
    rw [zipWords, if_pos ⟨hwhole, hwhole⟩, ih]
  | case2 bytes hshort =>
    rw [zipWords, if_neg fun hboth => hshort hboth.1, zipPadded]

end Word

theorem Multiplier.applyInPlace_eq (k : Multiplier) (bytes : Bytes) (accumulate : Bool) :
    k.applyInPlace bytes accumulate = k.apply bytes bytes accumulate :=
  Word.mapWords_eq_zipWords (fun s d => if accumulate then d ^^^ k.onWord s else k.onWord s) bytes

namespace Region

variable {m : Modulus} {t : TableSet} {constant : UInt32} {r : m.Residue} {bytes : Bytes}

theorem zipWith_xor_self (bytes : Bytes) : List.zipWith (· ^^^ ·) bytes bytes = zeros bytes := by
  rw [List.zipWith_self, zeros, ← List.map_const']
  congr 1
  funext b
  exact UInt8.xor_self

theorem multipleInPlace_eq (t : TableSet) (constant : UInt32) (accumulate : Bool) (bytes : Bytes) :
    multipleInPlace t constant accumulate bytes = multiple t constant accumulate bytes bytes := by
  by_cases hzero : constant = 0
  · rw [multipleInPlace, multiple, if_pos hzero, if_pos hzero]
  by_cases hone : constant = 1
  · rw [multipleInPlace, multiple, if_neg hzero, if_neg hzero, if_pos hone, if_pos hone,
      addInto_ok rfl, zipWith_xor_self]
    cases accumulate <;> rfl
  · rw [multipleInPlace, multiple, if_neg hzero, if_neg hzero, if_neg hone, if_neg hone]
    simp only [Multiplier.applyInPlace_eq]

theorem multipleInPlace_isMultiple (h : t.Holds m) (hc : m.Represents constant.toNat r)
    (accumulate : Bool) (bytes : Bytes) :
    ∃ after, multipleInPlace t constant accumulate bytes = .ok after ∧
      IsMultiple m r accumulate bytes bytes after := by
  rw [multipleInPlace_eq]
  exact multiple_isMultiple h hc accumulate rfl

section Step

variable {len : Nat}

theorem multiplyInPlace_on (h : t.Holds m) (hc : m.Represents constant.toNat r)
    (hlen : len % m.width.elementBytes = 0) (hbytes : len ≤ bytes.length) (accumulate : Bool) :
    (multiplyInPlace t constant len accumulate).on bytes =
      (onPrefix len fun region => multipleInPlace t constant accumulate region).on bytes := by
  simp only [multiplyInPlace, Step.on_bind, Step.on_lift, checkMultiple_holds h hc hlen,
    Step.on_get, Check.minLength_ok hbytes]

/-- Multiplying a whole buffer in place. -/
theorem multiplyInPlace_whole_on (h : t.Holds m) (hc : m.Represents constant.toNat r)
    (hlen : len % m.width.elementBytes = 0) (hbytes : bytes.length = len) (accumulate : Bool) :
    ∃ after, (multiplyInPlace t constant len accumulate).on bytes = (.ok (), after) ∧
      IsMultiple m r accumulate bytes bytes after := by
  obtain ⟨after, hafter, hmultiple⟩ := multipleInPlace_isMultiple h hc accumulate bytes
  rw [← List.take_of_length_le hbytes.le] at hafter
  refine ⟨after, ?_, hmultiple⟩
  rw [multiplyInPlace_on h hc hlen hbytes.ge, onPrefix_ok hafter,
    List.drop_eq_nil_of_le hbytes.le, List.append_nil]

/-- What the check of the constant and the length refuses is refused before a byte is
written. -/
theorem multiplyInPlace_of_check_error {failure : Failure}
    (hcheck : checkMultiple "region_multiply_in_place" t.width constant len = .error failure)
    (bytes : Bytes) (accumulate : Bool) :
    (multiplyInPlace t constant len accumulate).on bytes = (.error failure, bytes) := by
  simp only [multiplyInPlace, Step.on_bind, Step.on_lift, hcheck]

/-- A constant that is no element is refused. -/
theorem multiplyInPlace_refused (hc : t.width.order < constant.toNat) (bytes : Bytes) (len : Nat)
    (accumulate : Bool) :
    (multiplyInPlace t constant len accumulate).on bytes =
      (.refuse "region_multiply_in_place" (.invalidElement constant.toNat t.width), bytes) :=
  multiplyInPlace_of_check_error (checkMultiple_refused hc _) bytes accumulate

end Step

section Copy

variable {len : Nat}

structure Suits (w : Width) (constant : UInt32) (len : Nat) (bytes : Bytes) : Prop where
  element : constant.toNat ≤ 2 ^ w.bits - 1
  whole : len % w.elementBytes = 0
  within : len ≤ bytes.length

/-- A constant and a length pass under every name or are refused under every name for one
cause. -/
theorem checkMultiple_cases (w : Width) (constant : UInt32) (len : Nat) :
    (constant.toNat ≤ w.order ∧ len % w.elementBytes = 0) ∨
      ∃ cause, ∀ operation, checkMultiple operation w constant len = .refuse operation cause := by
  rcases Nat.lt_or_ge w.order constant.toNat with hforeign | hc
  · exact Or.inr ⟨_, checkMultiple_refused hforeign⟩
  by_cases hlen : len % w.elementBytes = 0
  · exact Or.inl ⟨hc, hlen⟩
  · exact Or.inr ⟨_, checkMultiple_partial hc hlen⟩

/-- A buffer multiplied in place ends as a copy of it multiplied into another copy does. -/
theorem multiplyInPlace_on_of_suits (h : t.Holds m) (hsuits : Suits m.width constant len bytes)
    (accumulate : Bool) :
    ∃ after, (multiplyInPlace t constant len accumulate).on bytes = (.ok (), after) ∧
      (multiply t bytes constant len accumulate).on bytes = (.ok (), after) := by
  have helement := hsuits.element
  rw [← Width.order_eq] at helement
  have hc := m.represents_of_le_order helement
  obtain ⟨changed, hchanged, _⟩ := multipleInPlace_isMultiple h hc accumulate (bytes.take len)
  refine ⟨changed ++ bytes.drop len, ?_, ?_⟩
  · rw [multiplyInPlace_on h hc hsuits.whole hsuits.within]
    exact onPrefix_ok hchanged
  · rw [multiply_on h hc hsuits.whole hsuits.within hsuits.within]
    rw [multipleInPlace_eq] at hchanged
    exact onPrefix_ok hchanged

/-- Where a buffer cannot be multiplied in place, it cannot be multiplied into a copy, and for
the same cause. -/
theorem multiplyInPlace_on_of_not_suits (hsuits : ¬ Suits t.width constant len bytes)
    (accumulate : Bool) :
    ∃ cause operation operation',
      (multiplyInPlace t constant len accumulate).on bytes = (.refuse operation cause, bytes) ∧
        (multiply t bytes constant len accumulate).on bytes =
          (.refuse operation' cause, bytes) := by
  rcases checkMultiple_cases t.width constant len with ⟨hc, hlen⟩ | ⟨cause, hcheck⟩
  · have hshort : bytes.length < len := by
      rw [Width.order_eq] at hc
      by_contra hlong
      exact hsuits ⟨hc, hlen, Nat.le_of_not_lt hlong⟩
    refine ⟨.invalidLength (.atLeast len) bytes.length, "region_multiply_in_place: buf",
      "region_multiply: src", ?_, ?_⟩
    · simp only [multiplyInPlace, Step.on_bind, Step.on_lift, checkMultiple_ok hc hlen, Step.on_get,
        Check.minLength_refused hshort]
      rfl
    · simp only [multiply, Step.on_bind, Step.on_lift, checkMultiple_ok hc hlen,
        Check.minLength_refused hshort]
      rfl
  · exact ⟨cause, _, _, multiplyInPlace_of_check_error (hcheck _) bytes accumulate,
      multiply_of_check_error (hcheck _) bytes bytes accumulate⟩

end Copy

end Region

namespace BinaryField

/-- A buffer multiplied in place agrees with its multiple made from one copy of it into
another: both succeed, for the same constants, lengths and buffers, and leave the same
bytes, those after the region included; or both are refused for one cause, with every
number in it the same, and leave the bytes they had. -/
theorem multiplyRegionInPlace_as_copied {f : BinaryField} {m : Modulus}
    (h : TableSet.build m = .ok f.tables) (constant : UInt32) (len : Nat) (accumulate : Bool)
    (buf : Bytes) :
    (Region.Suits m.width constant len buf →
      ∃ after, (f.multiplyRegionInPlace constant len accumulate).on buf = (.ok (), after) ∧
        (f.multiplyRegion buf constant len accumulate).on buf = (.ok (), after)) ∧
    (¬ Region.Suits m.width constant len buf →
      ∃ cause operation operation',
        (f.multiplyRegionInPlace constant len accumulate).on buf =
            (.refuse operation cause, buf) ∧
          (f.multiplyRegion buf constant len accumulate).on buf =
            (.refuse operation' cause, buf)) := by
  have hholds := TableSet.holds_of_build h
  constructor
  · intro hsuits
    exact Region.multiplyInPlace_on_of_suits hholds hsuits accumulate
  · intro hsuits
    rw [← hholds.width_eq] at hsuits
    exact Region.multiplyInPlace_on_of_not_suits hsuits accumulate

/-- In a field of width 16: five elements, the last of them in a padded word, with a byte
after them, and a length of no whole number of elements. -/
theorem multiplyRegionInPlace_as_copied_w16 :
    ∃ f : BinaryField, TableSet.build (Modulus.ofWidth .w16) = .ok f.tables ∧
      (∃ after,
        (f.multiplyRegionInPlace 0x1234 10 true).on [1, 2, 3, 4, 5, 6, 7, 8, 9, 10, 11] =
            (.ok (), after) ∧
          (f.multiplyRegion [1, 2, 3, 4, 5, 6, 7, 8, 9, 10, 11] 0x1234 10 true).on
            [1, 2, 3, 4, 5, 6, 7, 8, 9, 10, 11] = (.ok (), after)) ∧
      ∃ cause operation operation',
        (f.multiplyRegionInPlace 1 3 false).on [1, 2] = (.refuse operation cause, [1, 2]) ∧
          (f.multiplyRegion [1, 2] 1 3 false).on [1, 2] =
            (.refuse operation' cause, [1, 2]) := by
  obtain ⟨t, hbuild, _⟩ := TableSet.build_of_admissible (Modulus.admissible_ofWidth .w16)
  have hsuits : Region.Suits (Modulus.ofWidth .w16).width 0x1234 10
      [1, 2, 3, 4, 5, 6, 7, 8, 9, 10, 11] := ⟨by decide, rfl, by decide⟩
  have hpartial : ¬ Region.Suits (Modulus.ofWidth .w16).width 1 3 [1, 2] := fun hsuits =>
    absurd hsuits.whole (by decide)
  exact ⟨⟨⟨0, t⟩⟩, hbuild,
    (multiplyRegionInPlace_as_copied (f := ⟨⟨0, t⟩⟩) hbuild 0x1234 10 true _).1 hsuits,
    (multiplyRegionInPlace_as_copied (f := ⟨⟨0, t⟩⟩) hbuild 1 3 false _).2 hpartial⟩

end BinaryField

end ErasureField
