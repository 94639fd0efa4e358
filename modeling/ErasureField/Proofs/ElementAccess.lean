import ErasureField.Proofs.ElementBuffer

/-!
Elements of a buffer by their index, for every index there is. The bytes of an element end at
the product of its next index and the bytes an element takes, which may be more than can be
addressed; an index is taken for what it is all the same, and none past the end is taken for
that of an element the buffer has. What is set is then read, the other elements stay, and
where nothing can be set nothing changes.
-/

namespace ErasureField.ElementBuffer

variable {m : Modulus} {b after : ElementBuffer} {value : UInt32} {index : Nat}

theorem Over.isSome_get?_iff (h : b.Over m) (index : Nat) :
    (b.get? index).isSome ↔ index < b.size := by
  rw [h.get?_eq]
  split
  · next hindex => exact iff_of_true rfl hindex
  · next hindex => exact iff_of_false Bool.false_ne_true hindex

/-- A value is refused if it is no element, and otherwise an index if it is past the end. -/
theorem Over.set_endsBy (h : b.Over m) (index : Nat) (value : UInt32) :
    (set index value).EndsBy b
      (if 2 ^ m.width.bits - 1 < value.toNat then
        some ⟨"GaloisBuffer::set", .invalidElement value.toNat m.width⟩
      else if b.size ≤ index then
        some ⟨"GaloisBuffer::set", .invalidLength
          (.atLeast (min ((index + 1) * m.width.elementBytes) (addressLimit - 1))) b.bytes.length⟩
      else none) := by
  rw [← Width.order_eq]
  split
  · next hforeign =>
    rw [← h.width_eq] at hforeign ⊢
    exact set_foreign hforeign index
  · next hvalue =>
    rw [Nat.not_lt] at hvalue
    split
    · next hindex => exact set_past h hvalue hindex
    · next hindex =>
      obtain ⟨after, hset, _⟩ := set_on h hvalue (Nat.lt_of_not_le hindex)
      exact ⟨after, hset⟩

/-- A value that has been set is read where it was set, and every other element as before. -/
theorem Over.get?_of_set (h : b.Over m) (hset : (set index value).on b = (.ok (), after))
    (k : Nat) : after.get? k = if k = index then some value else b.get? k := by
  have haccepted : value.toNat ≤ m.width.order ∧ index < b.size := by
    by_contra hrefused
    obtain ⟨cause, hcause⟩ : (set index value).Refuses "GaloisBuffer::set" b :=
      set_refused h hrefused
    rw [hset] at hcause
    cases hcause
  obtain ⟨after', hset', hbecomes⟩ := set_on h haccepted.1 haccepted.2
  rw [hset] at hset'
  obtain rfl : after = after' := congrArg Prod.snd hset'
  have hafter : after.Over m := h.congr hbecomes.field hbecomes.length
  rw [← hafter.getElem?_elements, hbecomes.elements, ← h.getElem?_elements]
  split
  · next heq =>
    subst heq
    exact List.getElem?_set_self (by rw [h.length_elements]; exact haccepted.2)
  · next hne => exact List.getElem?_set_ne (Ne.symm hne)

/-- Elements of a buffer are read and set by an index that may be any number. An element is
read exactly when the index is that of one. A value that is no element is refused before the
index is looked at; an index past the end is refused for where its bytes end, which is counted
exactly up to the last position there is, and for the bytes the buffer has; no byte changes
then. Otherwise the value is set, and of all elements this one has changed. -/
theorem elements_by_index {b : ElementBuffer} {m : Modulus}
    (h : TableSet.build m = .ok b.field.tables)
    (hwhole : b.bytes.length % m.width.elementBytes = 0)
    (haddressable : b.bytes.length < 2 ^ 64) (index : Nat) (value : UInt32) :
    ((b.get? index).isSome ↔ index < b.size) ∧
    (set index value).EndsBy b
      (if 2 ^ m.width.bits - 1 < value.toNat then
        some ⟨"GaloisBuffer::set", .invalidElement value.toNat m.width⟩
      else if b.size ≤ index then
        some ⟨"GaloisBuffer::set", .invalidLength
          (.atLeast (min ((index + 1) * m.width.elementBytes) (2 ^ 64 - 1))) b.bytes.length⟩
      else none) ∧
    ∀ after, (set index value).on b = (.ok (), after) →
      after.get? index = some value ∧ ∀ k, k ≠ index → after.get? k = b.get? k := by
  have hover : b.Over m := ⟨TableSet.holds_of_build h, hwhole, haddressable⟩
  refine ⟨hover.isSome_get?_iff index, hover.set_endsBy index value, ?_⟩
  intro after hset
  constructor
  · rw [hover.get?_of_set hset, if_pos rfl]
  · intro k hk
    rw [hover.get?_of_set hset, if_neg hk]

/-- Five elements of width 16. The bytes of two indices end past all that can be addressed, and
those of one of them would be the first two of the buffer if they were counted modulo that. -/
theorem elements_by_index_w16 :
    ∃ b : ElementBuffer, TableSet.build (Modulus.ofWidth .w16) = .ok b.field.tables ∧
      b.bytes = [1, 2, 3, 4, 5, 6, 7, 8, 9, 10] ∧
      (set 0x8000000000000000 7).on b = (.refuse "GaloisBuffer::set"
        (.invalidLength (.atLeast 0xFFFFFFFFFFFFFFFF) 10), b) ∧
      (set 0x7FFFFFFFFFFFFFFF 0x10000).on b = (.refuse "GaloisBuffer::set"
        (.invalidElement 0x10000 .w16), b) ∧
      (set 5 7).on b = (.refuse "GaloisBuffer::set" (.invalidLength (.atLeast 12) 10), b) ∧
      ∃ after, (set 4 7).on b = (.ok (), after) ∧ after.get? 4 = some 7 ∧
        after.get? 3 = b.get? 3 := by
  obtain ⟨t, hbuild, _⟩ := TableSet.build_of_admissible (Modulus.admissible_ofWidth .w16)
  let b : ElementBuffer := ⟨⟨⟨0, t⟩⟩, [1, 2, 3, 4, 5, 6, 7, 8, 9, 10]⟩
  have hlength : b.bytes.length = 10 := rfl
  have hwidth : b.field.width = .w16 := (TableSet.holds_of_build hbuild).width_eq
  have hwhole : b.bytes.length % (Modulus.ofWidth .w16).width.elementBytes = 0 := by
    rw [hlength]
    rfl
  have haddressable : b.bytes.length < 2 ^ 64 := by
    rw [hlength]
    decide
  have hsize : b.size = 5 := by
    rw [size, hlength, hwidth]
    rfl
  have haccess := elements_by_index (b := b) hbuild hwhole haddressable
  rw [hsize] at haccess
  obtain ⟨_, ⟨after, hset⟩, hread⟩ := haccess 4 7
  obtain ⟨hself, hothers⟩ := hread after hset
  exact ⟨b, hbuild, rfl, (haccess 0x8000000000000000 7).2.1,
    (haccess 0x7FFFFFFFFFFFFFFF 0x10000).2.1, (haccess 5 7).2.1, after, hset, hself,
    hothers 3 (by decide)⟩

end ErasureField.ElementBuffer
