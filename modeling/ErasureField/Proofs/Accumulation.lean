import ErasureField.Proofs.RegionResidue
import Mathlib.Data.List.Perm.Basic
import Mathlib.Data.Nat.Bitwise

/-!
Accumulation into one destination. Adding a multiple of a source adds bytes that depend on
neither the destination nor the path that the constant takes, and so does adding a source;
in both cases the number of the destination is changed by an exclusive or. Exclusive ors
can be taken in any order and cancel when they are taken twice, whatever the lengths of the
steps and wherever their words and short ends lie.
-/

namespace ErasureField

namespace Region

/-- A step succeeds on every buffer of `n` bytes and adds a number to that of the buffer. -/
def Adds (n : Nat) (step : Step Bytes Unit) (k : Nat) : Prop :=
  ∀ bytes : Bytes, bytes.length = n →
    ∃ after, step.on bytes = (.ok (), after) ∧ after.length = n ∧
      Word.number after = Word.number bytes ^^^ k

section Adds

variable {n k l : Nat} {step next : Step Bytes Unit}

theorem adds_pure (n : Nat) : Adds n (pure ()) 0 :=
  fun bytes hbytes => ⟨bytes, rfl, hbytes, (Nat.xor_zero _).symm⟩

theorem Adds.bind (h : Adds n step k) (hnext : Adds n next l) :
    Adds n (do step; next) (k ^^^ l) := by
  intro bytes hbytes
  obtain ⟨middle, hstep, hmiddle, hnumber⟩ := h bytes hbytes
  obtain ⟨after, hrest, hafter, hnumber'⟩ := hnext middle hmiddle
  refine ⟨after, (Step.on_bind_ok hstep _).trans hrest, hafter, ?_⟩
  rw [hnumber', hnumber, Nat.xor_assoc]

theorem Adds.forM {α : Type} {f : α → Step Bytes Unit} {g : α → Nat} {items : List α}
    (h : ∀ a ∈ items, Adds n (f a) (g a)) :
    Adds n (items.forM f) ((items.map g).foldr (· ^^^ ·) 0) := by
  induction items with
  | nil => exact adds_pure n
  | cons a rest ih =>
    obtain ⟨hfirst, hrest⟩ := List.forall_mem_cons.mp h
    exact hfirst.bind (ih hrest)

/-- A number of that length is that of one buffer. -/
theorem Adds.on_eq (h : Adds n step k) {bytes after : Bytes} (hbytes : bytes.length = n)
    (hafter : after.length = n) (hnumber : Word.number after = Word.number bytes ^^^ k) :
    step.on bytes = (.ok (), after) := by
  obtain ⟨left, hstep, hleft, hnumber'⟩ := h bytes hbytes
  have heq : left = after :=
    Word.number_inj (hleft.trans hafter.symm) (hnumber'.trans hnumber.symm)
  rwa [heq] at hstep

theorem adds_add {src : Bytes} {len : Nat} (hsrc : len ≤ src.length) (hn : len ≤ n) :
    Adds n (add src len) (Word.number (src.take len)) := by
  intro dst hdst
  have htaken : (src.take len).length = len := List.length_take_of_le hsrc
  have hle : (src.take len).length ≤ dst.length := by omega
  have hnumber := Word.number_add_take hle
  rw [htaken] at hnumber
  refine ⟨_, add_on (by omega) hsrc, ?_, hnumber⟩
  simp [hdst]
  omega

end Adds

/-- Adding the multiple of a source is adding one region, the product, to whatever the
destination holds. -/
theorem exists_product {m : Modulus} {t : TableSet} {constant : UInt32} {r : m.Residue}
    {src : Bytes} {len : Nat} (h : t.Holds m) (hc : m.Represents constant.toNat r)
    (hlen : len % m.width.elementBytes = 0) (hsrc : len ≤ src.length) :
    ∃ product : Bytes, product.length = len ∧ ∀ dst : Bytes, len ≤ dst.length →
      (multiply t src constant len true).on dst = (add product len).on dst := by
  have hfrom := begins_bytes m hsrc
  obtain ⟨product, _, hproduct⟩ :=
    hfrom.region.multiply_on h hc hlen (represents_zeros m len) false
  rw [if_neg Bool.false_ne_true, zero_add] at hproduct
  refine ⟨product, hproduct.length, ?_⟩
  intro dst hdst
  have hto := begins_bytes m hdst
  exact (hfrom.accumulate_on h hc hlen hto).on_eq (hto.add_on hproduct.begins)

end Region

inductive Accumulation where
  | multiple (src : Bytes) (constant : UInt32) (len : Nat)
  | sum (src : Bytes) (len : Nat)

namespace Accumulation

open Region (Adds)

def step (f : BinaryField) : Accumulation → Step Bytes Unit
  | multiple src constant len => f.multiplyRegion src constant len true
  | sum src len => Region.add src len

def Fits (w : Width) (n : Nat) : Accumulation → Prop
  | multiple src constant len => constant.toNat ≤ 2 ^ w.bits - 1 ∧ len % w.elementBytes = 0 ∧
      len ≤ src.length ∧ len ≤ n
  | sum src len => len ≤ src.length ∧ len ≤ n

instance (w : Width) (n : Nat) : (a : Accumulation) → Decidable (a.Fits w n)
  | multiple _ _ _ => inferInstanceAs (Decidable (_ ∧ _))
  | sum _ _ => inferInstanceAs (Decidable (_ ∧ _))

def performAll (f : BinaryField) (steps : List Accumulation) : Step Bytes Unit :=
  steps.forM (step f)

variable {f : BinaryField} {m : Modulus} {n : Nat}

theorem Fits.adds (h : f.tables.Holds m) {a : Accumulation} (ha : a.Fits m.width n) :
    ∃ k, Adds n (a.step f) k := by
  cases a with
  | sum src len => exact ⟨_, Region.adds_add ha.1 ha.2⟩
  | multiple src constant len =>
    obtain ⟨hconstant, hlen, hsrc, hn⟩ := ha
    rw [← Width.order_eq] at hconstant
    have hc := m.represents_of_le_order hconstant
    obtain ⟨product, hproduct, hmultiply⟩ := Region.exists_product h hc hlen hsrc
    refine ⟨Word.number (product.take len), ?_⟩
    intro dst hdst
    rw [step, BinaryField.multiplyRegion, hmultiply dst (by omega)]
    exact Region.adds_add hproduct.ge hn dst hdst

/-- The steps add the same number in every order: what a step adds depends on the step alone, so
an order of the steps only changes the order of the numbers. -/
theorem adds_performAll (h : f.tables.Holds m) {steps : List Accumulation}
    (hfits : ∀ a ∈ steps, a.Fits m.width n) :
    ∃ k, ∀ order : List Accumulation, order.Perm steps → Adds n (performAll f order) k := by
  have hcomm : LeftCommutative fun a b : Nat => a ^^^ b := ⟨Nat.xor_left_comm⟩
  choose! g hg using fun (a : Accumulation) (ha : a.Fits m.width n) => ha.adds h
  refine ⟨(steps.map g).foldr (· ^^^ ·) 0, ?_⟩
  intro order hperm
  rw [← (hperm.map g).foldr_eq 0]
  apply Adds.forM
  intro a ha
  exact hg a (hfits a (hperm.mem_iff.mp ha))

/-- Steps that add to a destination leave the same bytes in every order in which they are
performed, and performing all of them once more, in that order, restores the
destination. -/
theorem performAll_in_any_order (h : TableSet.build m = .ok f.tables)
    {steps : List Accumulation} {dst : Bytes} (hfits : ∀ a ∈ steps, a.Fits m.width dst.length) :
    ∃ after : Bytes, after.length = dst.length ∧
      ∀ order : List Accumulation, order.Perm steps →
        (performAll f order).on dst = (.ok (), after) ∧
        (performAll f order).on after = (.ok (), dst) := by
  obtain ⟨k, hadds⟩ := adds_performAll (TableSet.holds_of_build h) hfits
  obtain ⟨after, _, hlength, hnumber⟩ := hadds steps (List.Perm.refl steps) dst rfl
  have hback : Word.number dst = Word.number after ^^^ k := by
    rw [hnumber, Nat.xor_xor_cancel_right]
  refine ⟨after, hlength, ?_⟩
  intro order hperm
  have horder := hadds order hperm
  exact ⟨horder.on_eq rfl hlength hnumber, horder.on_eq hlength rfl hback⟩

/-- Three steps of different kinds and lengths, of which the last goes by the short cut of
the constant one, in the opposite order. -/
theorem performAll_in_any_order_w16 :
    let steps : List Accumulation :=
      [.multiple [1, 2, 3, 4, 5, 6] 0x1234 4, .sum [7, 8, 9] 3, .multiple [10, 11] 1 2]
    ∃ f : BinaryField, TableSet.build (Modulus.ofWidth .w16) = .ok f.tables ∧
      ∃ after, (performAll f steps).on [12, 13, 14, 15, 16] = (.ok (), after) ∧
        (performAll f steps.reverse).on [12, 13, 14, 15, 16] = (.ok (), after) ∧
        (performAll f steps).on after = (.ok (), [12, 13, 14, 15, 16]) := by
  intro steps
  obtain ⟨t, hbuild, _⟩ := TableSet.build_of_admissible (Modulus.admissible_ofWidth .w16)
  have hfits : ∀ a ∈ steps, a.Fits Width.w16 ([12, 13, 14, 15, 16] : Bytes).length := by
    decide
  obtain ⟨after, _, horders⟩ := performAll_in_any_order (f := ⟨⟨0, t⟩⟩) hbuild hfits
  obtain ⟨honce, htwice⟩ := horders steps (List.Perm.refl steps)
  exact ⟨⟨⟨0, t⟩⟩, hbuild, after, honce, (horders _ steps.reverse_perm).1, htwice⟩

end Accumulation

end ErasureField
