import ErasureField.Proofs.FieldLaws
import ErasureField.Proofs.RegionResidue

/-!
The algebra of scaled regions. A region stands for a sequence of residues and scaling it
multiplies the sequence by one residue, so the laws of modules over the residue ring hold
between the steps on regions: for every constant, also where a product or a sum of
constants is zero or one and goes by a short cut that the constants themselves do not take,
and for every length of whole elements.
-/

namespace ErasureField

/-- Two steps succeed on a state and leave the same. -/
def Step.Agree {σ : Type} (step other : Step σ Unit) (state : σ) : Prop :=
  ∃ after, step.on state = (.ok (), after) ∧ other.on state = (.ok (), after)

theorem Region.Leaves.agree {m : Modulus} {len : Nat} {step other : Step Bytes Unit}
    {bytes rest : Bytes} {v : ℕ → m.Residue} (h : Leaves m len step bytes v rest)
    (hother : Leaves m len other bytes v rest) : Step.Agree step other bytes := by
  have heq := hother.on_eq h
  obtain ⟨after, hstep, _⟩ := h
  exact ⟨after, hstep, heq.trans hstep⟩

namespace BinaryField

open Region (Begins Leaves begins_bytes)

variable {f : BinaryField} {m : Modulus} {a b c : UInt32} {r s : m.Residue} {len : Nat}
  {src dst buf : Bytes}

/-- Scaling twice scales by the product. -/
theorem scale_scale_on (h : f.tables.Holds m) (ha : m.Represents a.toNat r)
    (hb : m.Represents b.toNat s) (hlen : len % m.width.elementBytes = 0)
    {v : ℕ → m.Residue} {rest : Bytes} (hbuf : Begins m len buf v rest) :
    Leaves m len (do
      f.multiplyRegionInPlace a len false
      f.multiplyRegionInPlace b len false) buf ((r * s) • v) rest := by
  rw [mul_comm, ← smul_smul]
  apply (hbuf.scale_on h ha hlen).bind
  intro middle hmiddle
  exact hmiddle.scale_on h hb hlen

section Laws

variable (h : f.tables.Holds m) (hlen : len % m.width.elementBytes = 0)

include h hlen

theorem scale_mul (ha : m.Represents a.toNat r) (hb : m.Represents b.toNat s) :
    ∃ p, f.mul a b = .ok p ∧ ∀ buf : Bytes, len ≤ buf.length →
      Step.Agree (do
          f.multiplyRegionInPlace a len false
          f.multiplyRegionInPlace b len false)
        (f.multiplyRegionInPlace p len false) buf := by
  obtain ⟨p, hmul, hp⟩ := gives_mul h ha hb
  refine ⟨p, hmul, ?_⟩
  intro buf hle
  have hbuf := begins_bytes m hle
  exact (scale_scale_on h ha hb hlen hbuf).agree (hbuf.scale_on h hp hlen)

theorem scale_inv (hc : m.Represents c.toNat r) (hne : c ≠ 0) :
    ∃ i, f.inv c = .ok i ∧ ∀ buf : Bytes, len ≤ buf.length →
      Step.on (do
          f.multiplyRegionInPlace c len false
          f.multiplyRegionInPlace i len false) buf = (.ok (), buf) := by
  obtain ⟨i, s, hinv, hi, hone⟩ := exists_inv h hc hne
  refine ⟨i, hinv, ?_⟩
  intro buf hle
  have hbuf := begins_bytes m hle
  obtain ⟨after, hstep, hafter⟩ := scale_scale_on h hc hi hlen hbuf
  rw [hone, one_smul] at hafter
  rwa [hafter.unique hbuf] at hstep

/-- What scaling back gives is found from the scaled buffer alone. -/
theorem scale_injective (hc : m.Represents c.toNat r) (hne : c ≠ 0) {buf other : Bytes}
    (hbuf : len ≤ buf.length) (hother : len ≤ other.length)
    (heq : (f.multiplyRegionInPlace c len false).on buf =
      (f.multiplyRegionInPlace c len false).on other) : buf = other := by
  obtain ⟨i, _, hback⟩ := scale_inv h hlen hc hne
  have hleft := hback buf hbuf
  have hright := hback other hother
  rw [Step.on_bind, heq, ← Step.on_bind, hright] at hleft
  exact (congrArg Prod.snd hleft).symm

/-- Adding the multiples of a region to it scales by the constant and one. -/
theorem scale_xor_one (hc : m.Represents c.toNat r) (hle : len ≤ buf.length) :
    Step.Agree (f.multiplyRegionInPlace c len true) (f.multiplyRegionInPlace (c ^^^ 1) len false)
      buf := by
  have hbuf := begins_bytes m hle
  have hsum : m.Represents (c ^^^ 1).toNat (r + 1) := hc.add m.represents_one
  have hadded := hbuf.multiplyInPlace_on h hc hlen true
  have hscaled := hbuf.scale_on h hsum hlen
  rw [if_pos rfl, add_comm] at hadded
  rw [add_smul, one_smul] at hscaled
  exact hadded.agree hscaled

theorem accumulate_xor (ha : m.Represents a.toNat r) (hb : m.Represents b.toNat s)
    (hsrc : len ≤ src.length) (hdst : len ≤ dst.length) :
    Step.Agree (do
        f.multiplyRegion src a len true
        f.multiplyRegion src b len true)
      (f.multiplyRegion src (a ^^^ b) len true) dst := by
  have hfrom := begins_bytes m hsrc
  have hto := begins_bytes m hdst
  have honce := hfrom.accumulate_on h (ha.add hb) hlen hto
  rw [add_smul, ← add_assoc] at honce
  refine Leaves.agree ?_ honce
  apply (hfrom.accumulate_on h ha hlen hto).bind
  intro middle hmiddle
  exact hfrom.accumulate_on h hb hlen hmiddle

/-- Scaling the sum of two regions gives the sum of the two scaled. -/
theorem scale_sum (hc : m.Represents c.toNat r) {x y : Bytes} (hx : len ≤ x.length)
    (hy : len ≤ y.length) (hdst : len ≤ dst.length) :
    ∃ x' y', (f.multiplyRegionInPlace c len false).on x = (.ok (), x') ∧
      (f.multiplyRegionInPlace c len false).on y = (.ok (), y') ∧
      Step.Agree (do
          Region.sum x y len
          f.multiplyRegionInPlace c len false)
        (Region.sum x' y' len) dst := by
  have hleft := begins_bytes m hx
  have hright := begins_bytes m hy
  obtain ⟨x', hscaleleft, hleft'⟩ := hleft.scale_on h hc hlen
  obtain ⟨y', hscaleright, hright'⟩ := hright.scale_on h hc hlen
  have hsum := hleft'.sum_on hright' hdst
  rw [← smul_add] at hsum
  refine ⟨x', y', hscaleleft, hscaleright, Leaves.agree ?_ hsum⟩
  apply (hleft.sum_on hright hdst).bind
  intro middle hmiddle
  exact hmiddle.scale_on h hc hlen

end Laws

/-- Scaling a region by one constant and then by another scales it by their product, and
scaling by an inverse undoes scaling by a constant, so that no two regions become the same.
Adding to a region its own multiple scales it by the constant and one; adding two multiples
of a source adds the multiple by the sum of the constants; and scaling goes through sums of
regions. Each step succeeds, and what follows the region stays as it was. -/
theorem region_scaling_laws (h : TableSet.build m = .ok f.tables)
    (ha : a.toNat ≤ 2 ^ m.width.bits - 1) (hb : b.toNat ≤ 2 ^ m.width.bits - 1)
    (hlen : len % m.width.elementBytes = 0) :
    (∃ p, f.mul a b = .ok p ∧ ∀ buf : Bytes, len ≤ buf.length →
      Step.Agree (do
          f.multiplyRegionInPlace a len false
          f.multiplyRegionInPlace b len false)
        (f.multiplyRegionInPlace p len false) buf) ∧
    (a ≠ 0 →
      (∃ i, f.inv a = .ok i ∧ ∀ buf : Bytes, len ≤ buf.length →
        Step.on (do
            f.multiplyRegionInPlace a len false
            f.multiplyRegionInPlace i len false) buf = (.ok (), buf)) ∧
      ∀ buf other : Bytes, len ≤ buf.length → len ≤ other.length →
        (f.multiplyRegionInPlace a len false).on buf =
          (f.multiplyRegionInPlace a len false).on other → buf = other) ∧
    (∀ buf : Bytes, len ≤ buf.length →
      Step.Agree (f.multiplyRegionInPlace a len true)
        (f.multiplyRegionInPlace (a ^^^ 1) len false) buf) ∧
    (∀ src dst : Bytes, len ≤ src.length → len ≤ dst.length →
      Step.Agree (do
          f.multiplyRegion src a len true
          f.multiplyRegion src b len true)
        (f.multiplyRegion src (a ^^^ b) len true) dst) ∧
    ∀ x y dst : Bytes, len ≤ x.length → len ≤ y.length → len ≤ dst.length →
      ∃ x' y', (f.multiplyRegionInPlace a len false).on x = (.ok (), x') ∧
        (f.multiplyRegionInPlace a len false).on y = (.ok (), y') ∧
        Step.Agree (do
            Region.sum x y len
            f.multiplyRegionInPlace a len false)
          (Region.sum x' y' len) dst := by
  have hholds := TableSet.holds_of_build h
  rw [← Width.order_eq] at ha hb
  have hra := m.represents_of_le_order ha
  have hrb := m.represents_of_le_order hb
  refine ⟨scale_mul hholds hlen hra hrb, ?_, ?_, ?_, ?_⟩
  · intro hne
    refine ⟨scale_inv hholds hlen hra hne, ?_⟩
    intro buf other hbuf hother
    exact scale_injective hholds hlen hra hne hbuf hother
  · intro buf hbuf
    exact scale_xor_one hholds hlen hra hbuf
  · intro src dst hsrc hdst
    exact accumulate_xor hholds hlen hra hrb hsrc hdst
  · intro x y dst hx hy hdst
    exact scale_sum hholds hlen hra hx hy hdst

/-- Two elements of width 16 and a byte after them: scaled and scaled back, and with their
multiples added. -/
theorem region_scaling_laws_w16 :
    ∃ f : BinaryField, TableSet.build (Modulus.ofWidth .w16) = .ok f.tables ∧
      (∃ i, f.inv 0x1234 = .ok i ∧
        Step.on (do
            f.multiplyRegionInPlace 0x1234 4 false
            f.multiplyRegionInPlace i 4 false) [1, 2, 3, 4, 5] = (.ok (), [1, 2, 3, 4, 5])) ∧
      Step.Agree (f.multiplyRegionInPlace 0x1234 4 true) (f.multiplyRegionInPlace 0x1235 4 false)
        [1, 2, 3, 4, 5] := by
  obtain ⟨t, hbuild, _⟩ := TableSet.build_of_admissible (Modulus.admissible_ofWidth .w16)
  have hlen : 4 % (Modulus.ofWidth .w16).width.elementBytes = 0 := rfl
  have hle : 4 ≤ ([1, 2, 3, 4, 5] : Bytes).length := by decide
  obtain ⟨_, hinverse, hadded, _⟩ := region_scaling_laws (f := ⟨⟨0, t⟩⟩) (a := 0x1234) (b := 0)
    hbuild (by decide) (by decide) hlen
  obtain ⟨i, hinv, hback⟩ := (hinverse (by decide)).1
  exact ⟨⟨⟨0, t⟩⟩, hbuild, ⟨i, hinv, hback _ hle⟩, hadded _ hle⟩

end BinaryField

end ErasureField
