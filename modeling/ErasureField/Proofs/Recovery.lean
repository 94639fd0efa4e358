import ErasureField.Proofs.DefaultField

/-!
Recovery of two lost blocks from two parities. The first parity is the sum of all blocks,
the second the sum of each block times a power of two that is its own. Adding the
surviving blocks once more takes them out of both, since every residue is its own
negative, and leaves two equations for the two lost blocks; these have one solution
because the powers of two are different as long as there are fewer than `2^w` blocks. All
arithmetic is that of the default field of the width, whatever has been asked for before.
-/

namespace ErasureField

structure Parity where
  sum : Bytes
  weighted : Bytes

namespace Parity

def zero (len : Nat) : Parity := ⟨List.replicate len 0, List.replicate len 0⟩

def coefficient (w : Width) : Nat → Step Registry UInt32
  | 0 => return 1
  | i + 1 => do w.mul (← coefficient w i) 2

def addBlock (w : Width) (len : Nat) (c : UInt32) (block : Bytes) (parity : Parity) :
    Step Registry Parity := do
  let sum ← (Region.add block len).result parity.sum
  let multiply ← w.multiplyRegion block c len true
  let weighted ← multiply.result parity.weighted
  return ⟨sum, weighted⟩

/-- Adds the blocks at some indices, each with its coefficient. -/
def addBlocks (w : Width) (len : Nat) {k : Nat} (blocks : Fin k → Bytes) :
    List (Fin k) → Parity → Step Registry Parity
  | [], parity => return parity
  | i :: rest, parity => do
    let c ← coefficient w i
    let parity ← addBlock w len c (blocks i) parity
    addBlocks w len blocks rest parity

/-- The blocks at two indices, from the parities of these two blocks. -/
def recover (w : Width) (len : Nat) (i j : Nat) (parity : Parity) :
    Step Registry (Bytes × Bytes) := do
  let ci ← coefficient w i
  let cj ← coefficient w j
  let inverse ← w.inv (ci ^^^ cj)
  let empty : Bytes := List.replicate len 0
  let multiply ← w.multiplyRegion parity.sum ci len false
  let product ← multiply.result empty
  let difference ← (Region.sum parity.weighted product len).result empty
  let multiply ← w.multiplyRegion difference inverse len false
  let second ← multiply.result empty
  let first ← (Region.sum parity.sum second len).result empty
  return (first, second)

open Registry (Yields)

variable {w : Width} {len : Nat} {parity : Parity}

structure Represents (w : Width) (len : Nat) (parity : Parity)
    (p q : ℕ → (Modulus.ofWidth w).Residue) : Prop where
  sum : Region.Represents (Modulus.ofWidth w) len parity.sum p
  weighted : Region.Represents (Modulus.ofWidth w) len parity.weighted q

theorem represents_zero (w : Width) (len : Nat) : Represents w len (zero len) 0 0 :=
  ⟨Region.represents_zeros _ len, Region.represents_zeros _ len⟩

theorem yields_coefficient (w : Width) (i : Nat) :
    Yields (coefficient w i) fun c =>
      (Modulus.ofWidth w).Represents c.toNat ((Modulus.ofWidth w).x ^ i) := by
  induction i with
  | zero =>
    apply Yields.pure
    rw [pow_zero]
    exact Modulus.represents_one _
  | succ i ih =>
    apply ih.bind
    intro c hc
    rw [pow_succ]
    exact Yields.mul hc (Modulus.represents_two _)

theorem yields_addBlock {c : UInt32} {r : (Modulus.ofWidth w).Residue} {block : Bytes}
    {d p q : ℕ → (Modulus.ofWidth w).Residue}
    (hc : (Modulus.ofWidth w).Represents c.toNat r) (hlen : len % w.elementBytes = 0)
    (hblock : Region.Represents (Modulus.ofWidth w) len block d)
    (hparity : parity.Represents w len p q) :
    Yields (addBlock w len c block parity) fun after =>
      after.Represents w len (p + d) (q + r • d) := by
  apply (Yields.result (hparity.sum.add_on hblock)).bind
  intro sum hsum
  apply (Yields.multiplyRegion hc hlen hblock true).bind
  intro multiply hmultiply
  apply (Yields.result (hmultiply _ _ hparity.weighted)).bind
  intro weighted hweighted
  exact Yields.pure ⟨hsum, hweighted⟩

theorem yields_addBlocks {k : Nat} {blocks : Fin k → Bytes}
    {d : Fin k → ℕ → (Modulus.ofWidth w).Residue} (hlen : len % w.elementBytes = 0)
    (hblocks : ∀ i, Region.Represents (Modulus.ofWidth w) len (blocks i) (d i))
    (indices : List (Fin k)) {p q : ℕ → (Modulus.ofWidth w).Residue}
    (hparity : parity.Represents w len p q) :
    Yields (addBlocks w len blocks indices parity) fun after =>
      after.Represents w len (p + (indices.map d).sum)
        (q + (indices.map fun i => (Modulus.ofWidth w).x ^ i.val • d i).sum) := by
  induction indices generalizing parity p q with
  | nil =>
    apply Yields.pure
    simpa using hparity
  | cons i rest ih =>
    apply (yields_coefficient w i).bind
    intro c hc
    apply (yields_addBlock hc hlen (hblocks i) hparity).bind
    intro after hafter
    have hrest := ih hafter
    rw [List.map_cons, List.sum_cons, List.map_cons, List.sum_cons, ← add_assoc, ← add_assoc]
    exact hrest

section Solution

variable {m : Modulus} {a b s : m.Residue} (u v : ℕ → m.Residue)

theorem add_add_self : u + v + v = u := by
  funext n
  simp only [Pi.add_apply]
  linear_combination m.add_self (v n)

/-- The first parity times the first coefficient takes the first block out of the second
parity. -/
theorem smul_difference_eq (hs : (a + b) * s = 1) : s • (a • u + b • v + a • (u + v)) = v := by
  funext n
  simp only [Pi.add_apply, Pi.smul_apply, smul_eq_mul]
  linear_combination v n * hs + s * m.add_self (a * u n)

end Solution

/-- Two parities of two blocks with different coefficients give both blocks. -/
theorem yields_recover {i j : Nat} {u v : ℕ → (Modulus.ofWidth w).Residue}
    (hlen : len % w.elementBytes = 0) (hi : i < w.order) (hj : j < w.order) (hij : i ≠ j)
    (hparity : parity.Represents w len (u + v)
      ((Modulus.ofWidth w).x ^ i • u + (Modulus.ofWidth w).x ^ j • v)) :
    Yields (recover w len i j parity) fun blocks =>
      Region.Represents (Modulus.ofWidth w) len blocks.1 u ∧
        Region.Represents (Modulus.ofWidth w) len blocks.2 v := by
  have hadmissible := Modulus.admissible_ofWidth w
  have hne : (Modulus.ofWidth w).x ^ i + (Modulus.ofWidth w).x ^ j ≠ 0 := by
    intro hzero
    apply hij
    apply hadmissible.x_pow_inj hi hj
    linear_combination hzero - (Modulus.ofWidth w).add_self ((Modulus.ofWidth w).x ^ j)
  obtain ⟨s, hs⟩ := hadmissible.exists_mul_eq_one hne
  have hempty := Region.represents_zeros (Modulus.ofWidth w) len
  apply (yields_coefficient w i).bind
  intro ci hci
  apply (yields_coefficient w j).bind
  intro cj hcj
  apply (Yields.inv (hci.add hcj) hs).bind
  intro inverse hinverse
  apply (Yields.multiplyRegion hci hlen hparity.sum false).bind
  intro multiply hmultiply
  apply (Yields.result (hmultiply _ _ hempty)).bind
  intro product hproduct
  apply (Yields.result (hparity.weighted.sum_on hproduct hempty.length)).bind
  intro difference hdifference
  apply (Yields.multiplyRegion hinverse hlen hdifference false).bind
  intro multiply hmultiply
  apply (Yields.result (hmultiply _ _ hempty)).bind
  intro second hsecond
  simp only [Bool.false_eq_true, if_false, zero_add, smul_difference_eq u v hs] at hsecond
  apply (Yields.result (hparity.sum.sum_on hsecond hempty.length)).bind
  intro first hfirst
  rw [add_add_self] at hfirst
  exact Yields.pure ⟨hfirst, hsecond⟩

/-- All terms and once more those of the surviving indices are the terms of the two lost
ones. -/
theorem sum_add_survivors {m : Modulus} {k : Nat} {i j : Fin k} (hij : i ≠ j)
    {survivors : List (Fin k)} (hnodup : survivors.Nodup)
    (hsurvivors : ∀ n, n ∈ survivors ↔ n ≠ i ∧ n ≠ j) (g : Fin k → ℕ → m.Residue) :
    ((List.finRange k).map g).sum + (survivors.map g).sum = g i + g j := by
  have hset : survivors.toFinset = ({i, j} : Finset (Fin k))ᶜ := by
    ext n
    simp [hsurvivors]
  rw [← Fin.sum_univ_def, ← List.sum_toFinset g hnodup, hset,
    ← Finset.sum_add_sum_compl {i, j} g, add_add_self, Finset.sum_pair hij]

/-- Any two of up to `2^w - 1` blocks are recovered from the two parities and the other
blocks, whatever calls were made before: the surviving blocks, taken out of the parities
in any order, leave what the two lost ones are found from. -/
theorem recover_two_lost_blocks (calls : List Call) (w : Width) {k len : Nat}
    (blocks : Fin k → Bytes) (hk : k ≤ 2 ^ w.bits - 1) (hlen : len % w.elementBytes = 0)
    (hblocks : ∀ n, (blocks n).length = len) {i j : Fin k} (hij : i < j)
    {survivors : List (Fin k)} (hnodup : survivors.Nodup)
    (hsurvivors : ∀ n, n ∈ survivors ↔ n ≠ i ∧ n ≠ j) :
    ∃ after, Step.on (do
        let parity ← addBlocks w len blocks (List.finRange k) (zero len)
        let remaining ← addBlocks w len blocks survivors parity
        recover w len i j remaining) (Call.history calls) = (.ok (blocks i, blocks j), after) := by
  rw [← Width.order_eq] at hk
  let d (n : Fin k) (e : ℕ) : (Modulus.ofWidth w).Residue :=
    (Modulus.ofWidth w).residue (Word.elementAt w (blocks n) e).toNat
  have hd (n : Fin k) : Region.Represents (Modulus.ofWidth w) len (blocks n) (d n) :=
    Region.represents_bytes _ (hblocks n)
  have hrun : Yields (do
      let parity ← addBlocks w len blocks (List.finRange k) (zero len)
      let remaining ← addBlocks w len blocks survivors parity
      recover w len i j remaining) fun recovered => recovered = (blocks i, blocks j) := by
    apply (yields_addBlocks hlen hd (List.finRange k) (represents_zero w len)).bind
    intro parity hparity
    apply (yields_addBlocks hlen hd survivors hparity).bind
    intro remaining hremaining
    rw [zero_add, zero_add, sum_add_survivors hij.ne hnodup hsurvivors,
      sum_add_survivors hij.ne hnodup hsurvivors] at hremaining
    have hvalue : i.val ≠ j.val := Fin.val_ne_of_ne hij.ne
    apply (yields_recover hlen (i.isLt.trans_le hk) (j.isLt.trans_le hk) hvalue hremaining).mono
    rintro ⟨first, second⟩ ⟨hfirst, hsecond⟩
    exact Prod.ext (hfirst.unique (hd i)) (hsecond.unique (hd j))
  obtain ⟨recovered, after, hstep, _, rfl⟩ := hrun _ (Call.sound_history calls)
  exact ⟨after, hstep⟩

/-- The first and the last of three blocks of two elements of width 16 each. -/
theorem recover_two_lost_blocks_w16 :
    let blocks : List Bytes := [[1, 2, 3, 4], [5, 6, 7, 8], [9, 10, 11, 12]]
    ∃ after, Step.on (do
        let parity ← addBlocks .w16 4 blocks.get (List.finRange 3) (zero 4)
        let remaining ← addBlocks .w16 4 blocks.get [1] parity
        recover .w16 4 0 2 remaining) (Call.history [.prepare .w8]) =
      (.ok ([1, 2, 3, 4], [9, 10, 11, 12]), after) := by
  intro blocks
  exact recover_two_lost_blocks [.prepare .w8] .w16 blocks.get (i := 0) (j := 2) (by decide)
    (by decide) (by decide) (by decide) (by decide) (by decide)

end Parity

end ErasureField
