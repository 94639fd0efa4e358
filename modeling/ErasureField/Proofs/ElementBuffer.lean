import ErasureField.ElementBuffer
import ErasureField.Proofs.RegionInPlace

/-!
Buffers as lists of elements. The bytes of a buffer are whole elements, in a memory whose
positions can be addressed. Elements are read and written one at a time, sums and multiples
go by words over all bytes; both are seen in the same list. Each operation has one
condition. Where it is met, the list changes as the operation says and the field and the
number of bytes stay; where it is not, the operation is refused under its own name and no
byte has changed.
-/

namespace ErasureField

/-- A step is refused in the name of an operation and leaves the state as it was. -/
def Step.Refuses {σ : Type} (step : Step σ Unit) (operation : String) (state : σ) : Prop :=
  ∃ cause, step.on state = (.error (.refused ⟨operation, cause⟩), state)

namespace ElementBuffer

variable {m : Modulus} {b src other : ElementBuffer} {value constant : UInt32} {index : Nat}

structure Over (m : Modulus) (b : ElementBuffer) : Prop where
  holds : b.field.tables.Holds m
  whole : b.bytes.length % m.width.elementBytes = 0
  addressable : b.bytes.length < addressLimit

structure Becomes (b after : ElementBuffer) (elements : List UInt32) : Prop where
  field : after.field = b.field
  length : after.bytes.length = b.bytes.length
  elements : after.elements = elements

theorem ofBytes_eq_ok_iff {field : BinaryField} {bytes : Bytes} :
    ofBytes field bytes = .ok b ↔
      bytes.length % field.width.elementBytes = 0 ∧ b = ⟨field, bytes⟩ := by
  have hunit : field.width.elementBytes ≠ 0 := field.width.elementBytes_pos.ne'
  by_cases hwhole : bytes.length % field.width.elementBytes = 0
  · rw [ofBytes, Check.multipleOf_ok hunit hwhole]
    simp [hwhole, eq_comm]
  · simp [ofBytes, Check.multipleOf, hunit, hwhole, Outcome.refuse]

theorem lt_size_iff (b : ElementBuffer) (i : Nat) :
    i < b.size ↔ (i + 1) * b.field.width.elementBytes ≤ b.bytes.length :=
  Nat.le_div_iff_mul_le b.field.width.elementBytes_pos

namespace Over

theorem width_eq (h : b.Over m) : b.field.width = m.width :=
  h.holds.width_eq

theorem lt_size_iff (h : b.Over m) (i : Nat) :
    i < b.size ↔ (i + 1) * m.width.elementBytes ≤ b.bytes.length := by
  rw [b.lt_size_iff, h.width_eq]

theorem size_mul (h : b.Over m) : b.size * m.width.elementBytes = b.bytes.length := by
  rw [size, h.width_eq]
  exact Nat.div_mul_cancel (Nat.dvd_of_mod_eq_zero h.whole)

theorem size_eq_iff (h : b.Over m) (hother : other.Over m) :
    b.size = other.size ↔ b.bytes.length = other.bytes.length := by
  constructor
  · intro hsize
    rw [← h.size_mul, ← hother.size_mul, hsize]
  · intro hlength
    rw [size, size, hlength, h.width_eq, hother.width_eq]

theorem stop?_eq (h : b.Over m) (index : Nat) :
    b.stop? index = if (index + 1) * m.width.elementBytes < addressLimit then
      some ((index + 1) * m.width.elementBytes) else none := by
  rw [stop?, start, h.width_eq, ← Nat.succ_mul]

/-- The bytes of an element that a buffer has end where they can be addressed. -/
theorem stop?_of_lt (h : b.Over m) (hindex : index < b.size) :
    b.stop? index = some ((index + 1) * m.width.elementBytes) := by
  have haddressable := h.addressable
  have hfits := (h.lt_size_iff index).mp hindex
  rw [h.stop?_eq]
  exact if_pos (by omega)

/-- Those of any other end past the buffer, if not past all that can be addressed. -/
theorem stop?_of_le (h : b.Over m) (hindex : b.size ≤ index) {stop : Nat}
    (hstop : b.stop? index = some stop) : b.bytes.length < stop := by
  have hpast : ¬ (index + 1) * m.width.elementBytes ≤ b.bytes.length := by
    rw [← h.lt_size_iff]
    omega
  rw [h.stop?_eq, Option.ite_none_right_eq_some, Option.some.injEq] at hstop
  obtain ⟨_, rfl⟩ := hstop
  exact Nat.lt_of_not_le hpast

theorem get?_eq (h : b.Over m) (i : Nat) :
    b.get? i = if i < b.size then some (Word.elementAt m.width b.bytes i) else none := by
  unfold get?
  split
  · next stop hstop =>
    by_cases hi : i < b.size
    · rw [h.stop?_of_lt hi] at hstop
      obtain rfl := Option.some.inj hstop
      rw [if_pos ((h.lt_size_iff i).mp hi), if_pos hi, h.width_eq]
    · rw [if_neg (Nat.not_le_of_lt (h.stop?_of_le (Nat.le_of_not_lt hi) hstop)), if_neg hi]
  · next hstop =>
    rw [if_neg]
    intro hi
    rw [h.stop?_of_lt hi] at hstop
    cases hstop

theorem elements_eq (h : b.Over m) :
    b.elements = (List.range b.size).map (Word.elementAt m.width b.bytes) := by
  rw [elements, ← List.filterMap_eq_map]
  apply List.filterMap_congr
  intro i hi
  rw [h.get?_eq, if_pos (List.mem_range.mp hi)]
  rfl

theorem length_elements (h : b.Over m) : b.elements.length = b.size := by
  rw [h.elements_eq, List.length_map, List.length_range]

theorem getElem?_elements (h : b.Over m) (i : Nat) : b.elements[i]? = b.get? i := by
  rw [h.elements_eq, h.get?_eq, List.getElem?_map]
  by_cases hi : i < b.size
  · rw [List.getElem?_range hi, if_pos hi, Option.map_some]
  · rw [List.getElem?_eq_none (by simpa using hi), if_neg hi, Option.map_none]

/-- What is over a field stays so when bytes are changed but not their number. -/
theorem congr {after : ElementBuffer} (h : b.Over m) (hfield : after.field = b.field)
    (hlength : after.bytes.length = b.bytes.length) : after.Over m := by
  constructor
  · rw [hfield]
    exact h.holds
  · rw [hlength]
    exact h.whole
  · rw [hlength]
    exact h.addressable

theorem becomes (h : b.Over m) {bytes : Bytes} {list : List UInt32}
    (hlength : bytes.length = b.bytes.length)
    (hlist : (List.range b.size).map (Word.elementAt m.width bytes) = list) :
    b.Becomes { b with bytes } list := by
  have hafter : Over m { b with bytes } := h.congr rfl hlength
  refine ⟨rfl, hlength, ?_⟩
  rw [hafter.elements_eq, ← hlist, (hafter.size_eq_iff h).mpr hlength]

end Over

section Set

theorem set_on (h : b.Over m) (hvalue : value.toNat ≤ m.width.order) (hindex : index < b.size) :
    ∃ after, (set index value).on b = (.ok (), after) ∧
      b.Becomes after (b.elements.set index value) := by
  have hfits := (h.lt_size_iff index).mp hindex
  have hrvalue := m.represents_of_le_order hvalue
  have hcheck := BinaryField.check_element h.holds hrvalue "GaloisBuffer::set"
  have hroom : b.field.width.elementBytes ≤ (b.bytes.drop (b.start index)).length := by
    rw [Nat.succ_mul] at hfits
    rw [start, h.width_eq, List.length_drop]
    omega
  have hstep : (set index value).on b = (.ok (), { b with
      bytes := b.bytes.take (b.start index) ++
        (Word.toBytes b.field.width.elementBytes value.toUInt64 ++
          (b.bytes.drop (b.start index)).drop b.field.width.elementBytes) }) := by
    simp only [set, Step.on_bind, Step.on_get, Step.on_lift, hcheck,
      h.stop?_of_lt hindex, Check.minLength_ok hfits, Word.store_ok hroom, Step.on_modify]
  rw [start, h.width_eq, List.drop_drop, ← List.append_assoc] at hstep
  have helement : Word.lane m.width value.toUInt64.toNat 0 = value := by
    rw [← UInt32.toNat_inj, Word.toNat_lane, Nat.mul_zero, Nat.shiftRight_zero,
      UInt32.toNat_toUInt64, Nat.mod_eq_of_lt hrvalue.lt]
  refine ⟨_, hstep, h.becomes ?_ ?_⟩
  · rw [Nat.succ_mul] at hfits
    simp only [List.length_append, List.length_take, Word.length_toBytes, List.length_drop]
    omega
  · apply List.ext_getElem?
    intro i
    rw [List.getElem?_map, List.getElem?_set, h.elements_eq, List.length_map, List.length_range,
      List.getElem?_map]
    by_cases hi : i < b.size
    · rw [List.getElem?_range hi, Option.map_some, Option.map_some,
        Word.elementAt_overwrite _ hfits i ((h.lt_size_iff i).mp hi), helement]
      by_cases hself : i = index
      · rw [if_pos hself, if_pos hself.symm, if_pos hindex]
      · rw [if_neg hself, if_neg (Ne.symm hself)]
    · rw [List.getElem?_eq_none (by simpa using hi), if_neg (by omega)]
      rfl

/-- A value that is no element is refused, wherever it is to stand. -/
theorem set_foreign (hvalue : b.field.width.order < value.toNat) (index : Nat) :
    (set index value).on b =
      (.refuse "GaloisBuffer::set" (.invalidElement value.toNat b.field.width), b) := by
  simp only [set, Step.on_get_bind, Step.on_lift_bind, Check.element_refused hvalue]
  rfl

/-- An element past the end is refused for where its bytes end, or for the last position there
is where they end past that. -/
theorem set_past (h : b.Over m) (hvalue : value.toNat ≤ m.width.order) (hindex : b.size ≤ index) :
    (set index value).on b = (.refuse "GaloisBuffer::set" (.invalidLength
      (.atLeast (min ((index + 1) * m.width.elementBytes) (addressLimit - 1))) b.bytes.length),
      b) := by
  have hrvalue := m.represents_of_le_order hvalue
  have hcheck := BinaryField.check_element h.holds hrvalue "GaloisBuffer::set"
  have hstop := h.stop?_eq index
  by_cases haddressed : (index + 1) * m.width.elementBytes < addressLimit
  · rw [if_pos haddressed] at hstop
    have hend : min ((index + 1) * m.width.elementBytes) (addressLimit - 1) =
        (index + 1) * m.width.elementBytes := by
      omega
    simp only [set, Step.on_get_bind, Step.on_lift_bind, hcheck, hstop,
      Check.minLength_refused (h.stop?_of_le hindex hstop), hend]
    rfl
  · rw [if_neg haddressed] at hstop
    have hend : min ((index + 1) * m.width.elementBytes) (addressLimit - 1) =
        addressLimit - 1 := by
      omega
    simp only [set, Step.on_get_bind, Step.on_lift_bind, hcheck, hstop, hend]
    rfl

theorem set_refused (h : b.Over m) (hrefused : ¬ (value.toNat ≤ m.width.order ∧ index < b.size)) :
    (set index value).Refuses "GaloisBuffer::set" b := by
  rcases Nat.lt_or_ge m.width.order value.toNat with hforeign | hvalue
  · rw [← h.width_eq] at hforeign
    exact ⟨_, set_foreign hforeign index⟩
  · have hindex : b.size ≤ index := Nat.le_of_not_lt fun hlt => hrefused ⟨hvalue, hlt⟩
    exact ⟨_, set_past h hvalue hindex⟩

end Set

section Bytes

variable {step : Step Bytes Unit}

theorem onBytes_on {after : Bytes} (operation : String) (h : step.on b.bytes = (.ok (), after)) :
    ((onBytes step).withOperation operation).on b = (.ok (), { b with bytes := after }) := by
  rw [Step.on_withOperation, onBytes, Step.on_zoom, h]
  rfl

/-- What a step on bytes refuses is refused in the name of the operation on buffers. -/
theorem onBytes_refused {inner : String} (operation : String) (h : step.Refuses inner b.bytes) :
    ((onBytes step).withOperation operation).Refuses operation b := by
  obtain ⟨cause, hstep⟩ := h
  refine ⟨cause, ?_⟩
  rw [Step.on_withOperation, onBytes, Step.on_zoom, hstep]
  rfl

end Bytes

section Peer

variable (operation : String)

theorem checkPeer_ok (hfield : (b.field == other.field) = true)
    (hlength : other.bytes.length = b.bytes.length) :
    b.checkPeer other operation = .ok () := by
  rw [checkPeer, if_pos hfield, Check.exactLength_ok hlength]

theorem checkPeer_refused (h : ¬ ((b.field == other.field) = true ∧
    other.bytes.length = b.bytes.length)) :
    ∃ cause, b.checkPeer other operation = .refuse operation cause := by
  unfold checkPeer
  by_cases hfield : (b.field == other.field) = true
  · have hlength : other.bytes.length ≠ b.bytes.length := fun hlength => h ⟨hfield, hlength⟩
    rw [if_pos hfield]
    exact ⟨_, Check.exactLength_refused hlength⟩
  · rw [if_neg hfield]
    exact ⟨_, rfl⟩

end Peer

section Add

theorem add_on (h : b.Over m) (hother : other.Over m) (hfield : (b.field == other.field) = true)
    (hlength : other.bytes.length = b.bytes.length) :
    ∃ after, (add other).on b = (.ok (), after) ∧
      b.Becomes after (List.zipWith (· ^^^ ·) b.elements other.elements) := by
  have hbytes : (Region.add other.bytes b.bytes.length).on b.bytes =
      (.ok (), List.zipWith (· ^^^ ·) b.bytes other.bytes) := by
    rw [Region.add_on (le_refl _) hlength.ge, List.take_length, List.drop_length,
      List.append_nil, List.take_of_length_le hlength.le]
  have hstep : (add other).on b =
      (.ok (), { b with bytes := List.zipWith (· ^^^ ·) b.bytes other.bytes }) := by
    simp only [add, Step.on_bind, Step.on_get, Step.on_lift, checkPeer_ok _ hfield hlength,
      onBytes_on _ hbytes]
  refine ⟨_, hstep, h.becomes ?_ ?_⟩
  · rw [List.length_zipWith, hlength, Nat.min_self]
  · have hsize : other.size = b.size := (hother.size_eq_iff h).mpr hlength
    rw [h.elements_eq, hother.elements_eq, hsize, List.zipWith_map, List.zipWith_self]
    apply List.map_congr_left
    intro i _
    exact Word.elementAt_zipWith_xor hlength.symm m.width i

theorem add_refused (h : ¬ ((b.field == other.field) = true ∧
    other.bytes.length = b.bytes.length)) :
    (add other).Refuses "GaloisBuffer::add_assign" b := by
  obtain ⟨cause, hcause⟩ := checkPeer_refused "GaloisBuffer::add_assign" h
  refine ⟨cause, ?_⟩
  simp only [add, Step.on_bind, Step.on_get, Step.on_lift, hcause]
  rfl

end Add

section Multiple

/-- A region of multiples holds the products of the constant and the source's elements. -/
theorem Over.becomes_multiple {after : Bytes} {accumulate : Bool} {r : m.Residue} (h : b.Over m)
    (hsrc : src.Over m) (hlength : src.bytes.length = b.bytes.length)
    (hc : m.Represents constant.toNat r)
    (hmultiple : Region.IsMultiple m r accumulate src.bytes b.bytes after) :
    ∃ products, src.elements.mapM (src.field.mul constant) = .ok products ∧
      b.Becomes { b with bytes := after }
        (if accumulate then List.zipWith (· ^^^ ·) b.elements products else products) := by
  have hsize : src.size = b.size := (hsrc.size_eq_iff h).mpr hlength
  have helement (i : Nat) : ∃ p, i < b.size →
      src.field.mul constant (Word.elementAt m.width src.bytes i) = .ok p ∧
      Word.elementAt m.width after i =
        if accumulate then Word.elementAt m.width b.bytes i ^^^ p else p := by
    by_cases hi : i < b.size
    · obtain ⟨p, hp⟩ := hmultiple.element_mul hsrc.holds hc ((h.lt_size_iff i).mp hi)
      exact ⟨p, fun _ => hp⟩
    · exact ⟨0, fun hlt => absurd hlt hi⟩
  choose p hp using helement
  refine ⟨(List.range b.size).map p, ?_, h.becomes hmultiple.length ?_⟩
  · rw [hsrc.elements_eq, hsize]
    apply Outcome.mapM_map_ok
    intro i hi
    exact (hp i (List.mem_range.mp hi)).1
  · have hlist : (List.range b.size).map (Word.elementAt m.width after) =
        (List.range b.size).map fun i =>
          if accumulate then Word.elementAt m.width b.bytes i ^^^ p i else p i := by
      apply List.map_congr_left
      intro i hi
      exact (hp i (List.mem_range.mp hi)).2
    rw [hlist]
    cases accumulate with
    | false => rfl
    | true =>
      rw [if_pos rfl, h.elements_eq, List.zipWith_map, List.zipWith_self]
      rfl

theorem scale_on (h : b.Over m) (hc : constant.toNat ≤ m.width.order) :
    ∃ after products, (scale constant).on b = (.ok (), after) ∧
      b.elements.mapM (b.field.mul constant) = .ok products ∧ b.Becomes after products := by
  have hrc := m.represents_of_le_order hc
  obtain ⟨after, hbytes, hmultiple⟩ :=
    Region.multiplyInPlace_whole_on h.holds hrc h.whole rfl false
  obtain ⟨products, hproducts, hbecomes⟩ := h.becomes_multiple h rfl hrc hmultiple
  refine ⟨_, products, ?_, hproducts, hbecomes⟩
  simp only [scale, Step.on_bind, Step.on_get, BinaryField.multiplyRegionInPlace,
    onBytes_on _ hbytes]

theorem scale_refused (h : b.Over m) (hc : ¬ constant.toNat ≤ m.width.order) :
    (scale constant).Refuses "GaloisBuffer::scale" b := by
  have hwidth : b.field.tables.width = m.width := h.width_eq
  rw [← hwidth] at hc
  have hbytes := Region.multiplyInPlace_refused (Nat.lt_of_not_le hc) b.bytes b.bytes.length
    false
  obtain ⟨cause, hstep⟩ := onBytes_refused "GaloisBuffer::scale" ⟨_, hbytes⟩
  refine ⟨cause, ?_⟩
  simp only [scale, Step.on_bind, Step.on_get, BinaryField.multiplyRegionInPlace, hstep]

theorem multiplyFrom_on (h : b.Over m) (hsrc : src.Over m)
    (hfield : (src.field == b.field) = true) (hlength : b.bytes.length = src.bytes.length)
    (hc : constant.toNat ≤ m.width.order) (accumulate : Bool) :
    ∃ after products, (multiplyFrom src constant accumulate).on b = (.ok (), after) ∧
      src.elements.mapM (src.field.mul constant) = .ok products ∧
      b.Becomes after
        (if accumulate then List.zipWith (· ^^^ ·) b.elements products else products) := by
  have hrc := m.represents_of_le_order hc
  obtain ⟨after, hbytes, hmultiple⟩ :=
    Region.multiply_whole_on hsrc.holds hrc hsrc.whole rfl hlength accumulate
  obtain ⟨products, hproducts, hbecomes⟩ := h.becomes_multiple hsrc hlength.symm hrc hmultiple
  refine ⟨_, products, ?_, hproducts, hbecomes⟩
  simp only [multiplyFrom, Step.on_bind, Step.on_get, Step.on_lift, checkPeer_ok _ hfield hlength,
    BinaryField.multiplyRegion, onBytes_on _ hbytes]

theorem multiplyFrom_refused (hsrc : src.Over m)
    (hrefused : ¬ ((src.field == b.field) = true ∧ b.bytes.length = src.bytes.length ∧
      constant.toNat ≤ m.width.order)) (accumulate : Bool) :
    (multiplyFrom src constant accumulate).Refuses "GaloisBuffer::multadd" b := by
  by_cases hpeer : (src.field == b.field) = true ∧ b.bytes.length = src.bytes.length
  · have hwidth : src.field.tables.width = m.width := hsrc.width_eq
    have hc : ¬ constant.toNat ≤ src.field.tables.width.order := by
      rw [hwidth]
      exact fun hc => hrefused ⟨hpeer.1, hpeer.2, hc⟩
    have hbytes := Region.multiply_refused (Nat.lt_of_not_le hc) src.bytes b.bytes
      src.bytes.length accumulate
    obtain ⟨cause, hstep⟩ := onBytes_refused "GaloisBuffer::multadd" ⟨_, hbytes⟩
    refine ⟨cause, ?_⟩
    simp only [multiplyFrom, Step.on_bind, Step.on_get, Step.on_lift,
      checkPeer_ok _ hpeer.1 hpeer.2, BinaryField.multiplyRegion, hstep]
  · obtain ⟨cause, hcause⟩ := checkPeer_refused "GaloisBuffer::multadd" hpeer
    refine ⟨cause, ?_⟩
    simp only [multiplyFrom, Step.on_bind, Step.on_get, Step.on_lift, hcause]
    rfl

end Multiple

end ElementBuffer

end ErasureField
