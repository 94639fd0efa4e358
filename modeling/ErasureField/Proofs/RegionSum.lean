import ErasureField.Proofs.ByteNumber

/-!
Sums of regions as steps. A sum changes as many first bytes of its destination as its
length says, each to the sum of the bytes at its place, and leaves the others; adding in
place is the same with the destination as one of the two summands. The sum goes by words
and then by bytes and is still that of the plain loop over the bytes, of any number. It
is refused for the first buffer that is too short, and then no byte changes.
-/

namespace ErasureField

/-- How a step on a state ends: it is refused with the error there is and leaves the state
as it was, or there is no error and it succeeds. -/
def Step.EndsBy {σ : Type} (step : Step σ Unit) (state : σ) : Option Error → Prop
  | some error => step.on state = (.error (.refused error), state)
  | none => ∃ after, step.on state = (.ok (), after)

namespace Step

variable {σ : Type} {step other : Step σ Unit} {state : σ} {error? : Option Error}

theorem EndsBy.congr (h : step.EndsBy state error?) (hon : other.on state = step.on state) :
    other.EndsBy state error? := by
  cases error? <;> simpa only [EndsBy, hon] using h

theorem EndsBy.succeeds_iff (h : step.EndsBy state error?) :
    (∃ after, step.on state = (.ok (), after)) ↔ error? = none := by
  cases error? with
  | none => exact iff_of_true h rfl
  | some error =>
    have hstep : step.on state = (.error (.refused error), state) := h
    simp [hstep]

theorem EndsBy.fails_iff (h : step.EndsBy state error?) :
    (∃ failure after, step.on state = (.error failure, after)) ↔ error? ≠ none := by
  cases error? with
  | none =>
    obtain ⟨after, hstep⟩ := h
    simp [hstep]
  | some error => exact iff_of_true ⟨_, _, h⟩ (Option.some_ne_none error)

end Step

namespace Region

/-- The error for the first buffer, each given by a name and a length, that is too short for
a region. -/
def shortBuffer? (len : Nat) (buffers : List (String × Nat)) : Option Error :=
  (buffers.find? fun buffer => buffer.2 < len).map fun buffer =>
    ⟨buffer.1, .invalidLength (.atLeast len) buffer.2⟩

def afterLengths {σ : Type} (len : Nat) (buffers : List (String × Nat)) (step : Step σ Unit) :
    Step σ Unit :=
  buffers.foldr (fun buffer rest => do Check.minLength buffer.1 buffer.2 len; rest) step

section Lengths

variable {σ : Type} {len : Nat} {buffers : List (String × Nat)} {step : Step σ Unit} {state : σ}

theorem shortBuffer?_eq_none_iff :
    shortBuffer? len buffers = none ↔ ∀ buffer ∈ buffers, len ≤ buffer.2 := by
  simp [shortBuffer?]

/-- A step that succeeds where every buffer is long enough is refused for the first that is
not. -/
theorem afterLengths_endsBy
    (h : (∀ buffer ∈ buffers, len ≤ buffer.2) → ∃ after, step.on state = (.ok (), after)) :
    (afterLengths len buffers step).EndsBy state (shortBuffer? len buffers) := by
  induction buffers with
  | nil => exact h (by simp)
  | cons buffer rest ih =>
    rcases Nat.lt_or_ge buffer.2 len with hshort | hlong
    · have herror : shortBuffer? len (buffer :: rest) =
          some ⟨buffer.1, .invalidLength (.atLeast len) buffer.2⟩ := by
        simp [shortBuffer?, hshort]
      rw [herror, afterLengths, List.foldr_cons, Check.minLength_refused hshort]
      rfl
    · have herror : shortBuffer? len (buffer :: rest) = shortBuffer? len rest := by
        simp [shortBuffer?, Nat.not_lt_of_le hlong]
      have hrest := ih fun hall => h (List.forall_mem_cons.mpr ⟨hlong, hall⟩)
      rw [herror]
      apply hrest.congr
      rw [afterLengths, List.foldr_cons, Check.minLength_ok hlong]
      rfl

end Lengths

variable {len : Nat} {a b src dst : Bytes}

theorem onPrefix_ok {f : Bytes → Outcome Bytes} {changed : Bytes}
    (h : f (dst.take len) = .ok changed) :
    (onPrefix len f).on dst = (.ok (), changed ++ dst.drop len) := by
  simp only [onPrefix, Step.on_bind, Step.on_get, Step.on_lift, h, Step.on_set]

section ByteLoop

/-- The plain loop for a sum: one byte of the destination after the other is replaced by the
sum of the bytes at its place, for which both sources must have one. -/
def sumByByte : Bytes → Bytes → Bytes → Outcome Bytes
  | _, _, [] => .ok []
  | x :: a, y :: b, _ :: dst => do
    let rest ← sumByByte a b dst
    return (x ^^^ y) :: rest
  | _, _, _ :: _ => .fault .sliceTooShort

theorem sumInto_eq (a b dst : Bytes) :
    sumInto a b dst =
      if dst.length ≤ a.length ∧ dst.length ≤ b.length then
        .ok (List.zipWith (· ^^^ ·) (a.take dst.length) (b.take dst.length))
      else .fault .sliceTooShort := by
  by_cases h : dst.length ≤ a.length ∧ dst.length ≤ b.length
  · rw [sumInto, if_pos h, if_pos h, sumBytes_eq (by simp [h])]
  · rw [sumInto, if_neg h, if_neg h]

/-- Words and a short end give what single bytes give, and break off where they do. -/
theorem sumInto_eq_sumByByte (a b dst : Bytes) : sumInto a b dst = sumByByte a b dst := by
  rw [sumInto_eq]
  fun_induction sumByByte a b dst with
  | case1 a b => simp
  | case2 x a y b z dst ih =>
    rw [← ih]
    by_cases h : dst.length ≤ a.length ∧ dst.length ≤ b.length
    · simp [h]
    · simp only [List.length_cons, Nat.add_le_add_iff_right, if_neg h]
      rfl
  | case3 a b z dst hshort =>
    rw [if_neg]
    rintro ⟨ha, hb⟩
    obtain ⟨x, a, rfl⟩ := List.exists_cons_of_length_pos (Nat.lt_of_lt_of_le (by simp) ha)
    obtain ⟨y, b, rfl⟩ := List.exists_cons_of_length_pos (Nat.lt_of_lt_of_le (by simp) hb)
    exact hshort x a y b rfl rfl

theorem addInto_eq_sumInto (dst src : Bytes) : addInto dst src = sumInto dst src dst := by
  simp [addInto, sumInto]

theorem sumInto_eq_fault_iff :
    sumInto a b dst = .fault .sliceTooShort ↔ a.length < dst.length ∨ b.length < dst.length := by
  rw [sumInto_eq, ite_eq_right_iff, ← Nat.not_le, ← Nat.not_le, ← not_and_or]
  constructor
  · intro h hlong
    cases h hlong
  · intro hshort hlong
    exact absurd hlong hshort

end ByteLoop

theorem sumInto_ok (ha : a.length = dst.length) (hb : b.length = dst.length) :
    sumInto a b dst = .ok (List.zipWith (· ^^^ ·) a b) := by
  rw [sumInto_eq, if_pos ⟨ha.ge, hb.ge⟩, List.take_of_length_le ha.le,
    List.take_of_length_le hb.le]

theorem addInto_ok (h : src.length = dst.length) :
    addInto dst src = .ok (List.zipWith (· ^^^ ·) dst src) := by
  rw [addInto_eq_sumInto, sumInto_ok rfl h]

theorem sum_on (ha : len ≤ a.length) (hb : len ≤ b.length) (hdst : len ≤ dst.length) :
    (sum a b len).on dst =
      (.ok (), List.zipWith (· ^^^ ·) (a.take len) (b.take len) ++ dst.drop len) := by
  simp only [sum, Step.on_bind, Step.on_lift, Step.on_get, Check.minLength_ok ha,
    Check.minLength_ok hb, Check.minLength_ok hdst]
  apply onPrefix_ok
  apply sumInto_ok <;> simp [ha, hb, hdst]

theorem add_on (hdst : len ≤ dst.length) (hsrc : len ≤ src.length) :
    (add src len).on dst =
      (.ok (), List.zipWith (· ^^^ ·) (dst.take len) (src.take len) ++ dst.drop len) := by
  simp only [add, Step.on_bind, Step.on_lift, Step.on_get, Check.minLength_ok hdst,
    Check.minLength_ok hsrc]
  apply onPrefix_ok
  apply addInto_ok
  simp [hsrc, hdst]

theorem sum_endsBy (a b dst : Bytes) (len : Nat) :
    (sum a b len).EndsBy dst (shortBuffer? len
      [("region_xor: a", a.length), ("region_xor: b", b.length),
        ("region_xor: dst", dst.length)]) := by
  have hchecked : (sum a b len).on dst = (afterLengths len
      [("region_xor: a", a.length), ("region_xor: b", b.length), ("region_xor: dst", dst.length)]
      (onPrefix len fun region => sumInto (a.take len) (b.take len) region)).on dst := by
    simp only [sum, afterLengths, List.foldr, Step.on_lift_bind, Step.on_get_bind]
  refine Step.EndsBy.congr (afterLengths_endsBy ?_) hchecked
  intro hall
  obtain ⟨ha, hb, hdst⟩ : len ≤ a.length ∧ len ≤ b.length ∧ len ≤ dst.length := by
    simpa using hall
  refine ⟨_, onPrefix_ok (sumInto_ok ?_ ?_)⟩ <;> simp [ha, hb, hdst]

theorem add_endsBy (src dst : Bytes) (len : Nat) :
    (add src len).EndsBy dst (shortBuffer? len
      [("region_xor_in_place: dst", dst.length), ("region_xor_in_place: src", src.length)]) := by
  have hchecked : (add src len).on dst = (afterLengths len
      [("region_xor_in_place: dst", dst.length), ("region_xor_in_place: src", src.length)]
      (onPrefix len fun region => addInto region (src.take len))).on dst := by
    simp only [add, afterLengths, List.foldr, Step.on_lift_bind, Step.on_get_bind]
  refine Step.EndsBy.congr (afterLengths_endsBy ?_) hchecked
  intro hall
  obtain ⟨hdst, hsrc⟩ : len ≤ dst.length ∧ len ≤ src.length := by
    simpa using hall
  exact ⟨_, onPrefix_ok (addInto_ok (by simp [hdst, hsrc]))⟩

theorem sum_succeeds_iff : (∃ after, (sum a b len).on dst = (.ok (), after)) ↔
    len ≤ a.length ∧ len ≤ b.length ∧ len ≤ dst.length := by
  rw [(sum_endsBy a b dst len).succeeds_iff, shortBuffer?_eq_none_iff]
  simp

theorem add_succeeds_iff : (∃ after, (add src len).on dst = (.ok (), after)) ↔
    len ≤ dst.length ∧ len ≤ src.length := by
  rw [(add_endsBy src dst len).succeeds_iff, shortBuffer?_eq_none_iff]
  simp

/-- Adding to a region leaves what the sum of a copy of it leaves. -/
theorem add_on_ok_iff {after : Bytes} :
    (add src len).on dst = (.ok (), after) ↔ (sum dst src len).on dst = (.ok (), after) := by
  constructor
  · intro h
    obtain ⟨hdst, hsrc⟩ := add_succeeds_iff.mp ⟨after, h⟩
    rw [sum_on hdst hsrc hdst, ← add_on hdst hsrc, h]
  · intro h
    obtain ⟨hdst, hsrc, _⟩ := sum_succeeds_iff.mp ⟨after, h⟩
    rw [add_on hdst hsrc, ← sum_on hdst hsrc hdst, h]

/-- What a sum leaves in its region, and after it. -/
theorem sum_leaves {after : Bytes} (h : (sum a b len).on dst = (.ok (), after)) :
    len ≤ after.length ∧
      after.take len = List.zipWith (· ^^^ ·) (a.take len) (b.take len) ∧
      after.drop len = dst.drop len := by
  obtain ⟨ha, hb, hdst⟩ := sum_succeeds_iff.mp ⟨after, h⟩
  have hlength : (List.zipWith (· ^^^ ·) (a.take len) (b.take len)).length = len := by
    simp [ha, hb]
  rw [sum_on ha hb hdst] at h
  obtain rfl := congrArg Prod.snd h
  refine ⟨?_, List.take_left' hlength, List.drop_left' hlength⟩
  rw [List.length_append, hlength]
  exact Nat.le_add_right _ _

section Twice

variable {after out : Bytes}

theorem zipWith_xor_cancel (h : a.length = b.length) :
    List.zipWith (· ^^^ ·) (List.zipWith (· ^^^ ·) a b) b = a := by
  have hsum : (List.zipWith (· ^^^ ·) a b).length = b.length := by
    simp [h]
  apply Word.number_inj
  · simp [h]
  · rw [Word.number_zipWith_xor hsum, Word.number_zipWith_xor h, Nat.xor_assoc, Nat.xor_self,
      Nat.xor_zero]

/-- Adding the second summand once more gives the first one back. -/
theorem sum_on_of_sum (h : (sum a b len).on dst = (.ok (), after)) (hout : len ≤ out.length) :
    (sum after b len).on out = (.ok (), a.take len ++ out.drop len) := by
  obtain ⟨ha, hb, hdst⟩ := sum_succeeds_iff.mp ⟨after, h⟩
  obtain ⟨hafter, hregion, _⟩ := sum_leaves h
  rw [sum_on hafter hb hout, hregion, zipWith_xor_cancel (by simp [ha, hb])]

/-- Adding a region twice takes it away again. -/
theorem add_on_of_add (h : (add src len).on dst = (.ok (), after)) :
    (add src len).on after = (.ok (), dst) := by
  rw [add_on_ok_iff] at h ⊢
  obtain ⟨hafter, _, hrest⟩ := sum_leaves h
  rw [sum_on_of_sum h hafter, hrest, List.take_append_drop]

end Twice

section Bytes

structure IsSum (len : Nat) (a b dst after : Bytes) : Prop where
  sum : ∀ i < len, ∃ x y, a[i]? = some x ∧ b[i]? = some y ∧ after[i]? = some (x ^^^ y)
  rest : ∀ i, len ≤ i → after[i]? = dst[i]?

theorem isSum_of_sum {after : Bytes} (h : (sum a b len).on dst = (.ok (), after)) :
    IsSum len a b dst after := by
  obtain ⟨ha, hb, _⟩ := sum_succeeds_iff.mp ⟨after, h⟩
  obtain ⟨_, hregion, hrest⟩ := sum_leaves h
  constructor
  · intro i hi
    have hx := List.getElem?_eq_getElem (Nat.lt_of_lt_of_le hi ha)
    have hy := List.getElem?_eq_getElem (Nat.lt_of_lt_of_le hi hb)
    refine ⟨_, _, hx, hy, ?_⟩
    rw [← List.getElem?_take_of_lt hi, hregion, List.getElem?_zipWith,
      List.getElem?_take_of_lt hi, List.getElem?_take_of_lt hi, hx, hy]
  · intro i hi
    obtain ⟨j, rfl⟩ := Nat.exists_eq_add_of_le hi
    rw [← List.getElem?_drop, hrest, List.getElem?_drop]

/-- Regions are summed byte by byte. A sum succeeds for exactly the buffers that are long
enough, sets the bytes of the region to the sums and leaves the others; adding in place
leaves what the sum of a copy does, and either is undone by the same summand. Underneath,
words and a short end do what the plain loop over the bytes does, for any number of them,
and it is a source that is too short that makes them break off. -/
theorem sums_byte_by_byte (a b dst : Bytes) (len : Nat) :
    ((∃ after, (sum a b len).on dst = (.ok (), after)) ↔
      len ≤ a.length ∧ len ≤ b.length ∧ len ≤ dst.length) ∧
    (∀ after, (sum a b len).on dst = (.ok (), after) →
      IsSum len a b dst after ∧ ∀ out : Bytes, len ≤ out.length →
        ∃ back, (sum after b len).on out = (.ok (), back) ∧ back.take len = a.take len) ∧
    (∀ after, (add b len).on dst = (.ok (), after) ↔ (sum dst b len).on dst = (.ok (), after)) ∧
    (∀ after, (add b len).on dst = (.ok (), after) → (add b len).on after = (.ok (), dst)) ∧
    sumInto a b dst = sumByByte a b dst ∧ addInto dst b = sumByByte dst b dst ∧
    (sumInto a b dst = .fault .sliceTooShort ↔ a.length < dst.length ∨ b.length < dst.length) ∧
    (addInto dst b = .fault .sliceTooShort ↔ b.length < dst.length) := by
  refine ⟨sum_succeeds_iff, ?_, ?_, ?_, sumInto_eq_sumByByte a b dst, ?_, sumInto_eq_fault_iff, ?_⟩
  · intro after h
    refine ⟨isSum_of_sum h, ?_⟩
    intro out hout
    refine ⟨_, sum_on_of_sum h hout, ?_⟩
    obtain ⟨ha, _⟩ := sum_succeeds_iff.mp ⟨after, h⟩
    exact List.take_left' (List.length_take_of_le ha)
  · intro after
    exact add_on_ok_iff
  · intro after h
    exact add_on_of_add h
  · rw [addInto_eq_sumInto, sumInto_eq_sumByByte]
  · rw [addInto_eq_sumInto, sumInto_eq_fault_iff]
    simp

end Bytes

end Region

end ErasureField
