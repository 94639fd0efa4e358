import ErasureField.Proofs.CallHistory
import ErasureField.Proofs.ElementBuffer

/-!
Histories of operations on a family of buffers. The bytes of the buffers are changed one
element at a time and by words, in any order; the lists of their elements are changed as
the operations say. What one operation does to the bytes it does to the lists, and what it
is refused for can be seen in the lists, so the lists go the same way over every history.
Fields, numbers of bytes and handles never change. Nothing depends on the source and the
target of an operation being different buffers.
-/

namespace ErasureField

inductive BufferCall (ι : Type) where
  | set (target : ι) (index : Nat) (value : UInt32)
  | scale (target : ι) (constant : UInt32)
  | add (target other : ι)
  | multiplyFrom (source target : ι) (constant : UInt32) (accumulate : Bool)

namespace BufferCall

variable {ι : Type}

def operation : BufferCall ι → String
  | .set .. => "GaloisBuffer::set"
  | .scale .. => "GaloisBuffer::scale"
  | .add .. => "GaloisBuffer::add_assign"
  | .multiplyFrom .. => "GaloisBuffer::multadd"

def elementLists (family : ι → ElementBuffer) : ι → List UInt32 :=
  ElementBuffer.elements ∘ family

/-- What an operation asks of its arguments, told by the fields and the elements. -/
def Accepts (field : ι → BinaryField) (lists : ι → List UInt32) : BufferCall ι → Prop
  | .set target index value =>
    value.toNat ≤ 2 ^ (field target).width.bits - 1 ∧ index < (lists target).length
  | .scale target constant => constant.toNat ≤ 2 ^ (field target).width.bits - 1
  | .add target other =>
    (field target == field other) = true ∧ (lists other).length = (lists target).length
  | .multiplyFrom source target constant _ =>
    (field source == field target) = true ∧ (lists target).length = (lists source).length ∧
      constant.toNat ≤ 2 ^ (field source).width.bits - 1

instance (field : ι → BinaryField) (lists : ι → List UInt32) :
    (call : BufferCall ι) → Decidable (call.Accepts field lists)
  | .set .. => inferInstanceAs (Decidable (_ ∧ _))
  | .scale .. => inferInstanceAs (Decidable (_ ≤ _))
  | .add .. => inferInstanceAs (Decidable (_ ∧ _))
  | .multiplyFrom .. => inferInstanceAs (Decidable (_ ∧ _ ∧ _))

structure Sound (field : ι → BinaryField) (bytes : ι → Bytes) (family : ι → ElementBuffer) :
    Prop where
  handles : ∀ i j, (field i == field j) = true → field i = field j
  field_eq : ∀ i, (family i).field = field i
  length_eq : ∀ i, (family i).bytes.length = (bytes i).length
  buffers : ∀ i, (family i).Over (field i).tables.modulus

section Sound

variable {field : ι → BinaryField} {bytes : ι → Bytes} {family : ι → ElementBuffer}

/-- Buffers that are made of byte strings over fields that calls have issued. -/
theorem sound_of_ofBytes {calls : List Call} (hfield : ∀ i, Call.Issued calls (field i))
    (haddressable : ∀ i, (bytes i).length < addressLimit)
    (hmade : ∀ i, ElementBuffer.ofBytes (field i) (bytes i) = .ok (family i)) :
    Sound field bytes family := by
  have hmade' (i : ι) := ElementBuffer.ofBytes_eq_ok_iff.mp (hmade i)
  constructor
  · intro i j hbeq
    exact (hfield i).eq_of_beq (hfield j) hbeq
  · intro i
    rw [(hmade' i).2]
  · intro i
    rw [(hmade' i).2]
  · intro i
    obtain ⟨m, hbuild, _⟩ := (hfield i).found
    have hholds := TableSet.holds_of_build hbuild
    rw [← hholds.modulus_eq] at hholds
    obtain ⟨hwhole, hb⟩ := hmade' i
    rw [hb]
    exact ⟨hholds, hwhole, haddressable i⟩

theorem Sound.length_elementLists (h : Sound field bytes family) (i : ι) :
    (elementLists family i).length = (family i).size :=
  (h.buffers i).length_elements

/-- Buffers over one field are over one modulus, and have as many bytes when they have as
many elements. -/
theorem Sound.peers (h : Sound field bytes family) {i j : ι}
    (hfield : (field i == field j) = true) :
    ((family i).field == (family j).field) = true ∧
      (family j).Over (field i).tables.modulus ∧
      ((elementLists family i).length = (elementLists family j).length ↔
        (family i).bytes.length = (family j).bytes.length) := by
  have hover := h.buffers j
  rw [← h.handles i j hfield] at hover
  refine ⟨?_, hover, ?_⟩
  · rw [h.field_eq, h.field_eq, hfield]
  · rw [h.length_elementLists, h.length_elementLists, (h.buffers i).size_eq_iff hover]

end Sound

variable [DecidableEq ι]

def onBuffer (target : ι) (step : Step ElementBuffer Unit) : Step (ι → ElementBuffer) Unit :=
  step.zoom (· target) fun family b => Function.update family target b

def step : BufferCall ι → Step (ι → ElementBuffer) Unit
  | .set target index value => onBuffer target (ElementBuffer.set index value)
  | .scale target constant => onBuffer target (ElementBuffer.scale constant)
  | .add target other => do
    let family ← get
    onBuffer target (ElementBuffer.add (family other))
  | .multiplyFrom source target constant accumulate => do
    let family ← get
    onBuffer target (ElementBuffer.multiplyFrom (family source) constant accumulate)

/-- The family after a sequence of operations, refused ones included. -/
def run (family : ι → ElementBuffer) (history : List (BufferCall ι)) : ι → ElementBuffer :=
  history.foldl (fun family call => (call.step.on family).2) family

section Lists

variable (field : ι → BinaryField) (lists : ι → List UInt32)

/-- What an operation makes of the elements, by the arithmetic of the fields. -/
def effect : BufferCall ι → Outcome (ι → List UInt32)
  | .set target index value =>
    return Function.update lists target ((lists target).set index value)
  | .scale target constant => do
    let products ← (lists target).mapM ((field target).mul constant)
    return Function.update lists target products
  | .add target other =>
    return Function.update lists target (List.zipWith (· ^^^ ·) (lists target) (lists other))
  | .multiplyFrom source target constant accumulate => do
    let products ← (lists source).mapM ((field source).mul constant)
    return Function.update lists target
      (if accumulate then List.zipWith (· ^^^ ·) (lists target) products else products)

/-- The elements after an operation; one that is refused leaves them. -/
def advance (call : BufferCall ι) : ι → List UInt32 :=
  if call.Accepts field lists then
    match call.effect field lists with
    | .ok after => after
    | .error _ => lists
  else lists

end Lists

section OneBuffer

variable {family : ι → ElementBuffer} {target : ι} {step : Step ElementBuffer Unit}

theorem onBuffer_on {after : ElementBuffer} (h : step.on (family target) = (.ok (), after)) :
    (onBuffer target step).on family = (.ok (), Function.update family target after) := by
  rw [onBuffer, Step.on_zoom, h]

theorem onBuffer_refused {operation : String} (h : step.Refuses operation (family target)) :
    (onBuffer target step).Refuses operation family := by
  obtain ⟨cause, hstep⟩ := h
  refine ⟨cause, ?_⟩
  rw [onBuffer, Step.on_zoom, hstep, Function.update_eq_self]

theorem elementLists_update (family : ι → ElementBuffer) (target : ι) (b : ElementBuffer) :
    elementLists (Function.update family target b) =
      Function.update (elementLists family) target b.elements :=
  Function.comp_update ElementBuffer.elements family target b

theorem step_add_on (family : ι → ElementBuffer) (target other : ι) :
    (BufferCall.add target other).step.on family =
      (onBuffer target (ElementBuffer.add (family other))).on family := by
  simp only [BufferCall.step, Step.on_bind, Step.on_get]

theorem step_multiplyFrom_on (family : ι → ElementBuffer) (source target : ι) (constant : UInt32)
    (accumulate : Bool) :
    (BufferCall.multiplyFrom source target constant accumulate).step.on family =
      (onBuffer target (ElementBuffer.multiplyFrom (family source) constant accumulate)).on
        family := by
  simp only [BufferCall.step, Step.on_bind, Step.on_get]

end OneBuffer

namespace Sound

variable {field : ι → BinaryField} {bytes : ι → Bytes} {family : ι → ElementBuffer} {target : ι}

/-- A buffer of the family may become another over its field with as many bytes. -/
theorem update (h : Sound field bytes family) {after : ElementBuffer} {list : List UInt32}
    (hafter : (family target).Becomes after list) :
    Sound field bytes (Function.update family target after) := by
  constructor
  · exact h.handles
  · rw [Function.forall_update_iff family fun i b => b.field = field i]
    exact ⟨hafter.field.trans (h.field_eq target), fun i _ => h.field_eq i⟩
  · rw [Function.forall_update_iff family fun i b => b.bytes.length = (bytes i).length]
    exact ⟨hafter.length.trans (h.length_eq target), fun i _ => h.length_eq i⟩
  · rw [Function.forall_update_iff family fun i b => b.Over (field i).tables.modulus]
    exact ⟨(h.buffers target).congr hafter.field hafter.length, fun i _ => h.buffers i⟩

/-- An operation that may be carried out does to the elements what it says. -/
theorem step_on (h : Sound field bytes family) {call : BufferCall ι}
    (hcall : call.Accepts field (elementLists family)) :
    ∃ after, call.step.on family = (.ok (), after) ∧
      call.effect field (elementLists family) = .ok (elementLists after) ∧
      Sound field bytes after := by
  cases call with
  | set target index value =>
    obtain ⟨hvalue, hindex⟩ := hcall
    rw [← BinaryField.order_eq] at hvalue
    rw [h.length_elementLists] at hindex
    obtain ⟨b, hstep, hb⟩ := ElementBuffer.set_on (h.buffers target) hvalue hindex
    refine ⟨_, onBuffer_on hstep, ?_, h.update hb⟩
    rw [elementLists_update, hb.elements]
    rfl
  | scale target constant =>
    rw [Accepts, ← BinaryField.order_eq] at hcall
    obtain ⟨b, products, hstep, hproducts, hb⟩ := ElementBuffer.scale_on (h.buffers target) hcall
    rw [h.field_eq] at hproducts
    refine ⟨_, onBuffer_on hstep, ?_, h.update hb⟩
    rw [elementLists_update, hb.elements, effect]
    simp only [elementLists, Function.comp_apply, hproducts, Outcome.ok_bind, Outcome.pure_eq_ok]
  | add target other =>
    obtain ⟨hfield, hlength⟩ := hcall
    obtain ⟨hbeq, hother, hbytes⟩ := h.peers hfield
    obtain ⟨b, hstep, hb⟩ :=
      ElementBuffer.add_on (h.buffers target) hother hbeq (hbytes.mp hlength.symm).symm
    refine ⟨_, (step_add_on _ _ _).trans (onBuffer_on hstep), ?_, h.update hb⟩
    rw [elementLists_update, hb.elements]
    rfl
  | multiplyFrom source target constant accumulate =>
    obtain ⟨hfield, hlength, hc⟩ := hcall
    rw [← BinaryField.order_eq] at hc
    obtain ⟨hbeq, htarget, hbytes⟩ := h.peers hfield
    obtain ⟨b, products, hstep, hproducts, hb⟩ :=
      ElementBuffer.multiplyFrom_on htarget (h.buffers source) hbeq (hbytes.mp hlength.symm).symm hc
        accumulate
    rw [h.field_eq] at hproducts
    refine ⟨_, (step_multiplyFrom_on _ _ _ _ _).trans (onBuffer_on hstep), ?_, h.update hb⟩
    rw [elementLists_update, hb.elements, effect]
    simp only [elementLists, Function.comp_apply, hproducts, Outcome.ok_bind, Outcome.pure_eq_ok]

/-- Any other operation is refused under its own name. -/
theorem step_refused (h : Sound field bytes family) {call : BufferCall ι}
    (hcall : ¬ call.Accepts field (elementLists family)) :
    call.step.Refuses call.operation family := by
  cases call with
  | set target index value =>
    apply onBuffer_refused
    apply ElementBuffer.set_refused (h.buffers target)
    rwa [BinaryField.order_eq, ← h.length_elementLists]
  | scale target constant =>
    apply onBuffer_refused
    apply ElementBuffer.scale_refused (h.buffers target)
    rwa [BinaryField.order_eq]
  | add target other =>
    have hrefused : ¬ (((family target).field == (family other).field) = true ∧
        (family other).bytes.length = (family target).bytes.length) := by
      rw [h.field_eq, h.field_eq]
      rintro ⟨hfield, hlength⟩
      exact hcall ⟨hfield, ((h.peers hfield).2.2.mpr hlength.symm).symm⟩
    rw [Step.Refuses, step_add_on]
    exact onBuffer_refused (ElementBuffer.add_refused hrefused)
  | multiplyFrom source target constant accumulate =>
    have hrefused : ¬ (((family source).field == (family target).field) = true ∧
        (family target).bytes.length = (family source).bytes.length ∧
        constant.toNat ≤ (field source).tables.modulus.width.order) := by
      rw [h.field_eq, h.field_eq, BinaryField.order_eq]
      rintro ⟨hfield, hlength, hc⟩
      exact hcall ⟨hfield, ((h.peers hfield).2.2.mpr hlength.symm).symm, hc⟩
    rw [Step.Refuses, step_multiplyFrom_on]
    exact onBuffer_refused
      (ElementBuffer.multiplyFrom_refused (h.buffers source) hrefused accumulate)

theorem run (h : Sound field bytes family) (history : List (BufferCall ι)) :
    Sound field bytes (run family history) ∧
      elementLists (run family history) =
        history.foldl (advance field) (elementLists family) := by
  induction history generalizing family with
  | nil => exact ⟨h, rfl⟩
  | cons call rest ih =>
    show Sound field bytes (BufferCall.run (call.step.on family).2 rest) ∧
      elementLists (BufferCall.run (call.step.on family).2 rest) =
        rest.foldl (advance field) (advance field (elementLists family) call)
    by_cases hcall : call.Accepts field (elementLists family)
    · obtain ⟨after, hstep, heffect, hafter⟩ := h.step_on hcall
      have hadvance : advance field (elementLists family) call = elementLists after := by
        rw [advance, if_pos hcall, heffect]
      rw [hstep, hadvance]
      exact ih hafter
    · obtain ⟨cause, hstep⟩ := h.step_refused hcall
      rw [hstep, advance, if_neg hcall]
      exact ih h

end Sound

/-- Over every history of operations on buffers, the lists of elements go as the arithmetic
of the fields says. Fields and numbers of bytes stay; a buffer yields as many elements as it
has, each where it is read. An operation whose arguments are accepted succeeds and does to
the lists what it says; any other is refused under its own name and no buffer changes. -/
theorem elements_follow_history {calls : List Call} {field : ι → BinaryField}
    {bytes : ι → Bytes} {family : ι → ElementBuffer} (hfield : ∀ i, Call.Issued calls (field i))
    (haddressable : ∀ i, (bytes i).length < addressLimit)
    (hmade : ∀ i, ElementBuffer.ofBytes (field i) (bytes i) = .ok (family i))
    (history : List (BufferCall ι)) :
    let now := run family history
    (∀ i, (now i).field = field i ∧ (now i).bytes.length = (bytes i).length ∧
      (now i).bytes.length = (now i).size * (field i).width.elementBytes ∧
      (now i).elements.length = (now i).size ∧
      ∀ k, (now i).elements[k]? = (now i).get? k) ∧
    elementLists now = history.foldl (advance field) (elementLists family) ∧
    (∀ call : BufferCall ι, call.Accepts field (elementLists now) →
      ∃ after, call.step.on now = (.ok (), after) ∧
        call.effect field (elementLists now) = .ok (elementLists after)) ∧
    (∀ call : BufferCall ι, ¬ call.Accepts field (elementLists now) →
      ∃ cause, call.step.on now = (.error (.refused ⟨call.operation, cause⟩), now)) := by
  intro now
  obtain ⟨hnow, hlists⟩ := (sound_of_ofBytes hfield haddressable hmade).run history
  refine ⟨?_, hlists, ?_, ?_⟩
  · intro i
    exact ⟨hnow.field_eq i, hnow.length_eq i, (hnow.buffers i).size_mul.symm,
      (hnow.buffers i).length_elements, (hnow.buffers i).getElem?_elements⟩
  · intro call hcall
    obtain ⟨after, hstep, heffect, _⟩ := hnow.step_on hcall
    exact ⟨after, hstep, heffect⟩
  · intro call hcall
    exact hnow.step_refused hcall

/-- Two buffers of five elements of width 16, the last of which are in padded words. One is
scaled and then added to the other, and neither has a sixth element to set. -/
theorem elements_follow_history_w16 :
    let bytes (i : Bool) : Bytes :=
      if i then [1, 2, 3, 4, 5, 6, 7, 8, 9, 10] else [11, 12, 13, 14, 15, 16, 17, 18, 19, 20]
    let history : List (BufferCall Bool) := [.scale true 0x1234, .add false true]
    ∃ (f : BinaryField) (family : Bool → ElementBuffer), Call.Issued [.ofWidth .w16] f ∧
      (∀ i, ElementBuffer.ofBytes f (bytes i) = .ok (family i)) ∧
      elementLists (run family history) =
        history.foldl (advance fun _ => f) (elementLists family) ∧
      ∀ i, ∃ cause, (BufferCall.set i 5 0).step.on (run family history) =
        (.error (.refused ⟨"GaloisBuffer::set", cause⟩), run family history) := by
  intro bytes history
  obtain ⟨f, hissued, hholds⟩ := Call.exists_issued .w16
  have hwidth : f.width = .w16 := congrArg Modulus.width hholds.modulus_eq
  have hlength (i : Bool) : (bytes i).length = 10 := by
    cases i <;> rfl
  have hmade (i : Bool) : ElementBuffer.ofBytes f (bytes i) = .ok ⟨f, bytes i⟩ := by
    rw [ElementBuffer.ofBytes_eq_ok_iff, hlength, hwidth]
    exact ⟨rfl, rfl⟩
  have haddressable (i : Bool) : (bytes i).length < addressLimit := by
    rw [hlength]
    decide
  obtain ⟨hshape, hlists, _, hrefused⟩ :=
    elements_follow_history (fun _ => hissued) haddressable hmade history
  refine ⟨f, fun i => ⟨f, bytes i⟩, hissued, hmade, hlists, ?_⟩
  intro i
  apply hrefused
  obtain ⟨_, hbytes, hsize, hcount, _⟩ := hshape i
  rw [hbytes, hlength, hwidth] at hsize
  change 10 = _ * 2 at hsize
  rintro ⟨_, hindex⟩
  change 5 < (run _ history i).elements.length at hindex
  omega

end BufferCall

end ErasureField
