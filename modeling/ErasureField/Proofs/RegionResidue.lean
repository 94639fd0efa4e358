import ErasureField.Proofs.RegionInPlace

/-!
Regions as sequences of residues. The elements of a region stand for residues, and past
its end there are zeros, so a region of a length stands for one sequence of residues, and
no other region of that length does. Sums of regions are then sums of sequences, and
multiples of regions are multiples of sequences. A step changes the region that a buffer
begins with and leaves the bytes after it.
-/

namespace ErasureField.Region

variable {m : Modulus} {t : TableSet} {constant : UInt32} {r : m.Residue} {len : Nat}
  {a b src dst : Bytes} {u v : ℕ → m.Residue}

structure Represents (m : Modulus) (len : Nat) (bytes : Bytes) (v : ℕ → m.Residue) : Prop where
  length : bytes.length = len
  residue : ∀ i, m.residue (Word.elementAt m.width bytes i).toNat = v i

theorem represents_bytes (m : Modulus) {bytes : Bytes} (h : bytes.length = len) :
    Represents m len bytes fun i => m.residue (Word.elementAt m.width bytes i).toNat :=
  ⟨h, fun _ => rfl⟩

theorem represents_zeros (m : Modulus) (len : Nat) :
    Represents m len (List.replicate len 0) 0 := by
  constructor
  · exact List.length_replicate
  · intro i
    rw [Word.elementAt_replicate_zero]
    exact m.residue_zero

/-- A sequence of residues has one region of a length that stands for it. -/
theorem Represents.unique (ha : Represents m len a v) (hb : Represents m len b v) : a = b := by
  apply Word.eq_of_elementAt_eq (w := m.width) (ha.length.trans hb.length.symm)
  intro i
  apply UInt32.toNat_inj.mp
  apply m.residue_inj (represents_elementAt m a i).lt (represents_elementAt m b i).lt
  rw [ha.residue, hb.residue]

theorem Represents.xor (ha : Represents m len a u) (hb : Represents m len b v) :
    Represents m len (List.zipWith (· ^^^ ·) a b) (u + v) := by
  have hlength : a.length = b.length := ha.length.trans hb.length.symm
  constructor
  · rw [List.length_zipWith, hlength, Nat.min_self, hb.length]
  · intro i
    rw [Word.elementAt_zipWith_xor hlength, UInt32.toNat_xor, m.residue_xor, ha.residue,
      hb.residue]
    rfl

/-- A region is multiplied as a sequence. Where the bytes are whole elements, what is not
an element of the region lies past its end and is zero. -/
theorem IsMultiple.represents {after : Bytes} {accumulate : Bool}
    (h : IsMultiple m r accumulate src dst after) (hlen : len % m.width.elementBytes = 0)
    (hsrc : Represents m len src u) (hdst : Represents m len dst v) :
    Represents m len after ((if accumulate then v else 0) + r • u) := by
  constructor
  · exact h.length.trans hdst.length
  · intro i
    by_cases hi : (i + 1) * m.width.elementBytes ≤ len
    · obtain ⟨p, hp, helement⟩ := h.element i (by rwa [hdst.length])
      rw [hsrc.residue] at hp
      rw [helement]
      cases accumulate with
      | false => simpa using hp.residue_eq
      | true => simp [m.residue_xor, hdst.residue, hp.residue_eq]
    · have hpast : len ≤ i * m.width.elementBytes := by
        obtain ⟨count, hcount⟩ := Nat.dvd_of_mod_eq_zero hlen
        rw [Nat.mul_comm] at hcount
        have hle : count ≤ i := by
          by_contra hlt
          apply hi
          rw [hcount]
          exact Nat.mul_le_mul_right _ (by omega)
        rw [hcount]
        exact Nat.mul_le_mul_right _ hle
      have hzero {bytes : Bytes} {s : ℕ → m.Residue} (hbytes : bytes.length = len)
          (hs : Represents m len bytes s) : s i = 0 := by
        rw [← hs.residue, Word.elementAt_of_length_le (by omega)]
        exact m.residue_zero
      rw [Word.elementAt_of_length_le (by rw [h.length, hdst.length]; exact hpast)]
      cases accumulate <;> simp [hzero hsrc.length hsrc, hzero hdst.length hdst]

structure Begins (m : Modulus) (len : Nat) (bytes : Bytes) (v : ℕ → m.Residue)
    (rest : Bytes) : Prop where
  region : Represents m len (bytes.take len) v
  rest : bytes.drop len = rest

/-- A step succeeds on a buffer, and what it leaves begins with such a region. -/
def Leaves (m : Modulus) (len : Nat) (step : Step Bytes Unit) (bytes : Bytes)
    (v : ℕ → m.Residue) (rest : Bytes) : Prop :=
  ∃ after, step.on bytes = (.ok (), after) ∧ Begins m len after v rest

section Begins

variable {bytes rest others : Bytes} {step next : Step Bytes Unit}

theorem begins_bytes (m : Modulus) (h : len ≤ bytes.length) :
    Begins m len bytes (fun i => m.residue (Word.elementAt m.width (bytes.take len) i).toNat)
      (bytes.drop len) :=
  ⟨represents_bytes m (List.length_take_of_le h), rfl⟩

theorem Begins.le (h : Begins m len bytes v rest) : len ≤ bytes.length := by
  have hlength := h.region.length
  rw [List.length_take] at hlength
  omega

/-- The region and the bytes after it are the whole buffer. -/
theorem Begins.unique (ha : Begins m len a v rest) (hb : Begins m len b v rest) : a = b := by
  rw [← List.take_append_drop len a, ← List.take_append_drop len b, ha.region.unique hb.region,
    ha.rest, hb.rest]

theorem Represents.begins_append (h : Represents m len a v) (rest : Bytes) :
    Begins m len (a ++ rest) v rest := by
  obtain ⟨rfl, hresidue⟩ := h
  constructor
  · rw [List.take_left]
    exact ⟨rfl, hresidue⟩
  · exact List.drop_left

/-- A buffer that is a region has no bytes after it. -/
theorem Represents.begins (h : Represents m len a v) : Begins m len a v [] := by
  simpa using h.begins_append []

theorem Begins.represents (h : Begins m len bytes v []) : Represents m len bytes v := by
  have hregion := h.region
  rwa [List.take_of_length_le (List.drop_eq_nil_iff.mp h.rest)] at hregion

theorem Leaves.bind (h : Leaves m len step bytes u rest)
    (hnext : ∀ middle, Begins m len middle u rest → Leaves m len next middle v rest) :
    Leaves m len (do step; next) bytes v rest := by
  obtain ⟨middle, hstep, hmiddle⟩ := h
  obtain ⟨after, hrest, hafter⟩ := hnext middle hmiddle
  exact ⟨after, (Step.on_bind_ok hstep _).trans hrest, hafter⟩

theorem Leaves.on_eq (h : Leaves m len step bytes v rest) (hnext : Leaves m len next bytes v rest) :
    step.on bytes = next.on bytes := by
  obtain ⟨after, hstep, hafter⟩ := h
  obtain ⟨after', hstep', hafter'⟩ := hnext
  rw [hstep, hstep', hafter.unique hafter']

theorem Begins.add_on (hdst : Begins m len dst v rest) (hsrc : Begins m len src u others) :
    Leaves m len (add src len) dst (v + u) rest := by
  refine ⟨_, Region.add_on hdst.le hsrc.le, ?_⟩
  rw [hdst.rest]
  exact (hdst.region.xor hsrc.region).begins_append rest

theorem Begins.sum_on {othersA othersB : Bytes} (ha : Begins m len a u othersA)
    (hb : Begins m len b v othersB) (hdst : len ≤ dst.length) :
    Leaves m len (sum a b len) dst (u + v) (dst.drop len) :=
  ⟨_, Region.sum_on ha.le hb.le hdst, (ha.region.xor hb.region).begins_append _⟩

theorem Begins.multiply_on (h : t.Holds m) (hc : m.Represents constant.toNat r)
    (hlen : len % m.width.elementBytes = 0) (hsrc : Begins m len src u others)
    (hdst : Begins m len dst v rest) (accumulate : Bool) :
    Leaves m len (multiply t src constant len accumulate) dst
      ((if accumulate then v else 0) + r • u) rest := by
  obtain ⟨changed, hchanged, hmultiple⟩ :=
    multiple_isMultiple h hc accumulate (hsrc.region.length.trans hdst.region.length.symm)
  refine ⟨changed ++ dst.drop len, ?_, ?_⟩
  · rw [Region.multiply_on h hc hlen hsrc.le hdst.le, onPrefix_ok hchanged]
  · rw [hdst.rest]
    exact (hmultiple.represents hlen hsrc.region hdst.region).begins_append rest

theorem Begins.multiplyInPlace_on (h : t.Holds m) (hc : m.Represents constant.toNat r)
    (hlen : len % m.width.elementBytes = 0) (hbytes : Begins m len bytes v rest)
    (accumulate : Bool) :
    Leaves m len (multiplyInPlace t constant len accumulate) bytes
      ((if accumulate then v else 0) + r • v) rest := by
  obtain ⟨changed, hchanged, hmultiple⟩ :=
    multipleInPlace_isMultiple h hc accumulate (bytes.take len)
  refine ⟨changed ++ bytes.drop len, ?_, ?_⟩
  · rw [Region.multiplyInPlace_on h hc hlen hbytes.le, onPrefix_ok hchanged]
  · rw [hbytes.rest]
    exact (hmultiple.represents hlen hbytes.region hbytes.region).begins_append rest

/-- Adding a multiple of a source adds the multiple of what the source stands for. -/
theorem Begins.accumulate_on (h : t.Holds m) (hc : m.Represents constant.toNat r)
    (hlen : len % m.width.elementBytes = 0) (hsrc : Begins m len src u others)
    (hdst : Begins m len dst v rest) :
    Leaves m len (multiply t src constant len true) dst (v + r • u) rest := by
  simpa using hsrc.multiply_on h hc hlen hdst true

/-- Scaling a region scales what it stands for. -/
theorem Begins.scale_on (h : t.Holds m) (hc : m.Represents constant.toNat r)
    (hlen : len % m.width.elementBytes = 0) (hbytes : Begins m len bytes v rest) :
    Leaves m len (multiplyInPlace t constant len false) bytes (r • v) rest := by
  simpa using hbytes.multiplyInPlace_on h hc hlen false

end Begins

section Step

theorem Represents.add_on (hdst : Represents m len dst v) (hsrc : Represents m len src u) :
    ∃ after, (add src len).on dst = (.ok (), after) ∧ Represents m len after (v + u) := by
  obtain ⟨after, hstep, hafter⟩ := hdst.begins.add_on hsrc.begins
  exact ⟨after, hstep, hafter.represents⟩

theorem Represents.sum_on (ha : Represents m len a u) (hb : Represents m len b v)
    (hdst : dst.length = len) :
    ∃ after, (sum a b len).on dst = (.ok (), after) ∧ Represents m len after (u + v) := by
  obtain ⟨after, hstep, hafter⟩ := ha.begins.sum_on hb.begins hdst.ge
  rw [List.drop_eq_nil_of_le hdst.le] at hafter
  exact ⟨after, hstep, hafter.represents⟩

theorem Represents.multiply_on (h : t.Holds m) (hc : m.Represents constant.toNat r)
    (hlen : len % m.width.elementBytes = 0) (hsrc : Represents m len src u)
    (hdst : Represents m len dst v) (accumulate : Bool) :
    ∃ after, (multiply t src constant len accumulate).on dst = (.ok (), after) ∧
      Represents m len after ((if accumulate then v else 0) + r • u) := by
  obtain ⟨after, hstep, hafter⟩ := hsrc.begins.multiply_on h hc hlen hdst.begins accumulate
  exact ⟨after, hstep, hafter.represents⟩

end Step

end ErasureField.Region
