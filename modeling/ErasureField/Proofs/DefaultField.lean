import ErasureField.Proofs.CallHistory
import ErasureField.Proofs.RegionResidue

/-!
Arithmetic of a width by itself. It asks for the default field each time, which can always
be had, so on any registry that calls can leave it has the results of the residues and
leaves a registry of the same kind. A sequence of such steps is followed step by step,
each from the property that the one before it ensures.
-/

namespace ErasureField

def Step.result {σ : Type} (step : Step σ Unit) (state : σ) : Outcome σ :=
  (step.on state).1.map fun _ => (step.on state).2

theorem Step.result_ok {σ : Type} {step : Step σ Unit} {state after : σ}
    (h : step.on state = (.ok (), after)) : step.result state = .ok after := by
  rw [Step.result, h]
  rfl

/-- On any sound registry a step has a value with a property, and leaves the registry
sound. -/
def Registry.Yields {α : Type} (step : Step Registry α) (P : α → Prop) : Prop :=
  ∀ registry : Registry, registry.Sound →
    ∃ value after, step.on registry = (.ok value, after) ∧ after.Sound ∧ P value

namespace Registry.Yields

variable {α β : Type} {P : α → Prop} {Q : β → Prop}

theorem pure {a : α} (h : P a) : Yields (Pure.pure a) P :=
  fun registry hsound => ⟨a, registry, rfl, hsound, h⟩

theorem bind {step : Step Registry α} {next : α → Step Registry β} (h : Yields step P)
    (hnext : ∀ a, P a → Yields (next a) Q) : Yields (step >>= next) Q := by
  intro registry hsound
  obtain ⟨a, middle, hstep, hmiddle, ha⟩ := h registry hsound
  obtain ⟨b, after, hrest, hafter, hb⟩ := hnext a ha middle hmiddle
  exact ⟨b, after, (Step.on_bind_ok hstep _).trans hrest, hafter, hb⟩

theorem mono {step : Step Registry α} {R : α → Prop} (h : Yields step P)
    (himp : ∀ a, P a → R a) : Yields step R := by
  intro registry hsound
  obtain ⟨a, after, hstep, hafter, ha⟩ := h registry hsound
  exact ⟨a, after, hstep, hafter, himp a ha⟩

/-- An operation that reads only its arguments. -/
theorem lift {outcome : Outcome α} (h : ∃ a, outcome = .ok a ∧ P a) :
    Yields (liftM outcome : Step Registry α) P := by
  obtain ⟨a, rfl, ha⟩ := h
  exact fun registry hsound => ⟨a, registry, rfl, hsound, ha⟩

theorem result {step : Step Bytes Unit} {state : Bytes} {P : Bytes → Prop}
    (h : ∃ after, step.on state = (.ok (), after) ∧ P after) :
    Yields (liftM (step.result state) : Step Registry Bytes) P := by
  obtain ⟨after, hstep, hafter⟩ := h
  exact lift ⟨after, Step.result_ok hstep, hafter⟩

section Width

variable {w : Width} {a b : UInt32} {r s : (Modulus.ofWidth w).Residue}

/-- The default field of a width can always be had. -/
theorem ofWidth (w : Width) :
    Yields (BinaryField.ofWidth w) fun f => f.tables.Holds (Modulus.ofWidth w) := by
  intro registry hsound
  obtain ⟨tables, hbuild, _⟩ := TableSet.build_of_admissible (Modulus.admissible_ofWidth w)
  obtain ⟨shared, after, hstep, hserves⟩ := hsound.tablesFor_ok hbuild
  have hfresh := hserves.sound.built hserves.found
  refine ⟨⟨shared⟩, after, ?_, hserves.sound, TableSet.holds_of_build hfresh⟩
  simp only [BinaryField.ofWidth, Step.on_map, Step.on_withOperation, defaultTables_eq, hstep]
  rfl

theorem mul (ha : (Modulus.ofWidth w).Represents a.toNat r)
    (hb : (Modulus.ofWidth w).Represents b.toNat s) :
    Yields (w.mul a b) fun v => (Modulus.ofWidth w).Represents v.toNat (r * s) :=
  (ofWidth w).bind fun _ hf => lift (BinaryField.gives_mul hf ha hb)

theorem inv (ha : (Modulus.ofWidth w).Represents a.toNat r) (hinverse : r * s = 1) :
    Yields (w.inv a) fun v => (Modulus.ofWidth w).Represents v.toNat s :=
  (ofWidth w).bind fun _ hf => lift (BinaryField.gives_inv hf ha hinverse)

theorem multiplyRegion {src : Bytes} {len : Nat} {u : ℕ → (Modulus.ofWidth w).Residue}
    (ha : (Modulus.ofWidth w).Represents a.toNat r) (hlen : len % w.elementBytes = 0)
    (hsrc : Region.Represents (Modulus.ofWidth w) len src u) (accumulate : Bool) :
    Yields (w.multiplyRegion src a len accumulate) fun step =>
      ∀ dst v, Region.Represents (Modulus.ofWidth w) len dst v →
        ∃ after, step.on dst = (.ok (), after) ∧
          Region.Represents (Modulus.ofWidth w) len after ((if accumulate then v else 0) + r • u) :=
  (ofWidth w).bind fun _ hf => pure fun _ _ hdst => hsrc.multiply_on hf ha hlen hdst accumulate

end Width

end Registry.Yields

end ErasureField
