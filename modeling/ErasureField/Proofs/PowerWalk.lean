import ErasureField.Logarithm
import ErasureField.Proofs.Generator

/-!
The walk over the powers of `x` and the tables it leaves. After `n` steps the walk
stands at the power with exponent `n`, has pushed the powers before it in order, and
has entered under each power the last exponent that it had; numbers that were no power
keep the entry that they began with. For a polynomial of the right degree every power
fits the table, so the walk ends in one of three ways: it returns to one too early, it
is not back at one at the end, or it has the order `2^w - 1`. In the last case the
tables turn products into sums of exponents.
-/

namespace ErasureField

namespace Modulus

variable {m : Modulus}

/-- The power of `x` that a walk reaches after a number of steps. -/
def xPower (m : Modulus) (i : Nat) : UInt64 := m.timesXPow i 1

@[simp]
theorem xPower_zero (m : Modulus) : m.xPower 0 = 1 := rfl

theorem timesXPow_succ (m : Modulus) (n : Nat) (a : UInt64) :
    m.timesXPow (n + 1) a = m.timesX (m.timesXPow n a) := by
  induction n generalizing a with
  | zero => rfl
  | succ n ih => rw [timesXPow, ih, ← timesXPow]

theorem xPower_succ (m : Modulus) (i : Nat) : m.xPower (i + 1) = m.timesX (m.xPower i) :=
  m.timesXPow_succ i 1

theorem HasDegree.represents_xPower (h : m.HasDegree) (i : Nat) :
    m.Represents (m.xPower i).toNat (m.x ^ i) := by
  have hone : (1 : UInt64).toNat < 2 ^ m.width.bits := m.represents_one.lt
  refine ⟨h.timesXPow_lt i hone, ?_⟩
  rw [xPower, residue_timesXPow, UInt64.toNat_one, residue_one, mul_one]

theorem HasDegree.xPower_le (h : m.HasDegree) (i : Nat) : (m.xPower i).toNat ≤ m.width.order :=
  m.width.lt_two_pow_iff.mp (h.represents_xPower i).lt

theorem HasDegree.xPower_eq_one_iff (h : m.HasDegree) (i : Nat) :
    m.xPower i = 1 ↔ m.x ^ i = 1 := by
  have hpower := h.represents_xPower i
  constructor
  · intro hone
    rw [← hpower.residue_eq, hone]
    exact m.residue_one
  · intro hone
    rw [hone] at hpower
    rw [← UInt64.toNat_inj]
    exact hpower.unique m.represents_one

/-- The walk repeats after the order. -/
theorem Admissible.xPower_mod (h : m.Admissible) (i : Nat) :
    m.xPower (i % m.width.order) = m.xPower i := by
  have hpower := h.degree.represents_xPower (i % m.width.order)
  rw [h.x_pow_mod] at hpower
  rw [← UInt64.toNat_inj]
  exact hpower.unique (h.degree.represents_xPower i)

/-- A walk that is not longer than the order of `x` does not return to one on its way. -/
theorem HasDegree.xPower_no_return (h : m.HasDegree) {n : Nat} (hn : n ≤ orderOf m.x) :
    ∀ i < n, ¬ (0 < i ∧ m.xPower i = 1) := by
  rintro i hi ⟨hpos, hone⟩
  exact pow_ne_one_of_lt_orderOf hpos.ne' (by omega) ((h.xPower_eq_one_iff i).mp hone)

end Modulus

namespace PowerWalk

variable {T : Type} [StoredWord T] {m : Modulus} {n : Nat} {walk : PowerWalk T}

structure After (m : Modulus) (n : Nat) (walk : PowerWalk T) : Prop where
  power : walk.power = m.xPower n
  antilog : walk.antilog.toList =
    (List.range n).map fun i => StoredWord.store (m.xPower i).toUInt32
  log_size : walk.log.size = m.width.order + 1
  log_entry : ∀ i < n, (∀ j < n, m.xPower j = m.xPower i → j ≤ i) →
    walk.log[(m.xPower i).toNat]? = some (StoredWord.store (UInt32.ofNat i))
  log_rest : ∀ a ≤ m.width.order, (∀ i < n, (m.xPower i).toNat ≠ a) →
    walk.log[a]? = some (StoredWord.store (UInt32.ofNat m.width.order))

theorem after_start (m : Modulus) : After m 0 (start m.width.order : PowerWalk T) where
  power := rfl
  antilog := rfl
  log_size := by simp [start]
  log_entry := by
    intro i hi
    omega
  log_rest := by
    intro a ha _
    have hlt : a < m.width.order + 1 := by omega
    simp [start, hlt]

/-- A step that neither returns to one nor leaves the table enters one power more. -/
theorem After.step (h : After m n walk) (hreturn : ¬ (0 < n ∧ m.xPower n = 1))
    (htable : (m.xPower n).toNat ≤ m.width.order) :
    ∃ next, walk.step m n = .ok next ∧ After m (n + 1) next := by
  have hsize : (m.xPower n).toNat < walk.log.size := by
    rw [h.log_size]
    omega
  refine ⟨_, by rw [PowerWalk.step, h.power, if_neg hreturn, if_pos hsize], ?_⟩
  constructor
  · exact (m.xPower_succ n).symm
  · simp [h.antilog, List.range_succ]
  · simpa using h.log_size
  · intro i hi hlast
    rcases Nat.lt_succ_iff_lt_or_eq.mp hi with hlt | rfl
    · have hne : (m.xPower n).toNat ≠ (m.xPower i).toNat := by
        intro heq
        have := hlast n (by omega) (UInt64.toNat_inj.mp heq)
        omega
      rw [Array.getElem?_setIfInBounds_ne hne]
      exact h.log_entry i hlt fun j hj => hlast j (by omega)
    · exact Array.getElem?_setIfInBounds_self_of_lt hsize
  · intro a ha hfresh
    rw [Array.getElem?_setIfInBounds_ne (hfresh n (by omega))]
    exact h.log_rest a ha fun i hi => hfresh i (by omega)

/-- A walk goes on for as long as its powers are in the table and are not one. -/
theorem run_after (m : Modulus) (n : Nat) (hreturn : ∀ i < n, ¬ (0 < i ∧ m.xPower i = 1))
    (htable : ∀ i < n, (m.xPower i).toNat ≤ m.width.order) :
    ∃ walk : PowerWalk T,
      (List.range n).foldlM (PowerWalk.step m) (start m.width.order) = .ok walk ∧
      After m n walk := by
  induction n with
  | zero => exact ⟨_, rfl, after_start m⟩
  | succ n ih =>
    obtain ⟨walk, hrun, hafter⟩ :=
      ih (fun i hi => hreturn i (by omega)) (fun i hi => htable i (by omega))
    obtain ⟨next, hstep, hnext⟩ := hafter.step (hreturn n (by omega)) (htable n (by omega))
    refine ⟨next, ?_, hnext⟩
    rw [List.range_succ, List.foldlM_append, hrun]
    simp [hstep]

/-- A walk that reaches `n` and stops there stops whatever is left of it. -/
theorem run_error {failure : Failure} {total : Nat}
    (hrun : (List.range n).foldlM (PowerWalk.step m) (start m.width.order) = .ok walk)
    (hstep : walk.step m n = .error failure) (hlt : n < total) :
    (List.range total).foldlM (PowerWalk.step m) (start m.width.order : PowerWalk T) =
      .error failure := by
  obtain ⟨rest, rfl⟩ := Nat.exists_eq_add_of_lt hlt
  have hsplit : List.range (n + rest + 1) =
      List.range n ++ n :: (List.range rest).map (n + 1 + ·) := by
    rw [Nat.add_right_comm, List.range_add, List.range_succ, List.append_assoc]
    rfl
  rw [hsplit, List.foldlM_append, hrun]
  simp [List.foldlM_cons, hstep]

end PowerWalk

end ErasureField
