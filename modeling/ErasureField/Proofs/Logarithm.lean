import ErasureField.Proofs.PowerWalk

/-!
Tables of logarithms and the arithmetic on them. The tables of an admissible
polynomial exist, every nonzero element has a logarithm in them and every exponent
below twice the order a power; products, quotients and inverses are then those of
the residues. A polynomial of the right degree that is not admissible is refused,
and no table is read past its end.
-/

namespace ErasureField

/-- An outcome is the element that stands for a residue. -/
def Modulus.Gives (m : Modulus) (outcome : Outcome UInt32) (r : m.Residue) : Prop :=
  ∃ v, outcome = .ok v ∧ m.Represents v.toNat r

theorem StoredWord.load_store {T : Type} [StoredWord T] {v : UInt32} (hv : v.toNat < values T) :
    load (store v : T) = v := by
  rw [← UInt32.toNat_inj, toNat_load_store, Nat.mod_eq_of_lt hv]

namespace Logarithms

variable {T : Type} [StoredWord T] {m : Modulus} {t : Logarithms T}

open PowerWalk

structure Tabulates (t : Logarithms T) (m : Modulus) : Prop where
  order_eq : t.order = m.width.order
  logOf : ∀ a : UInt32, a.toNat < 2 ^ m.width.bits → a ≠ 0 →
    ∃ i < m.width.order, t.logOf a = .ok i ∧ m.residue a.toNat = m.x ^ i
  powerOf : ∀ i < 2 * m.width.order, m.Gives (t.powerOf i) (m.x ^ i)

/-- The walk around a polynomial for which it ends at one and not before. -/
theorem build_eq_ok (h : m.HasDegree) (horder : orderOf m.x = m.width.order) :
    ∃ walk : PowerWalk T, After m m.width.order walk ∧
      build T m = .ok ⟨m.width.order, walk.log, walk.antilog ++ walk.antilog⟩ := by
  obtain ⟨walk, hrun, hafter⟩ := run_after (T := T) m m.width.order
    (h.xPower_no_return horder.ge) fun i _ => h.xPower_le i
  refine ⟨walk, hafter, ?_⟩
  have hclosed : m.x ^ m.width.order = 1 := by
    rw [← horder, pow_orderOf_eq_one]
  have hpower : walk.power = 1 := hafter.power.trans ((h.xPower_eq_one_iff _).mpr hclosed)
  simp only [build, hrun, Outcome.ok_bind, hpower, if_true]

theorem build_shortCycle (h : m.HasDegree) (hpos : 0 < orderOf m.x)
    (hlt : orderOf m.x < m.width.order) :
    build T m = .misconfigured "log table construction" (.shortCycle m (orderOf m.x)) := by
  obtain ⟨walk, hrun, hafter⟩ := run_after (T := T) m (orderOf m.x)
    (h.xPower_no_return (le_refl _)) fun i _ => h.xPower_le i
  have hback : walk.power = 1 :=
    hafter.power.trans ((h.xPower_eq_one_iff _).mpr (pow_orderOf_eq_one m.x))
  have hstep : walk.step m (orderOf m.x) =
      .misconfigured "log table construction" (.shortCycle m (orderOf m.x)) := by
    rw [PowerWalk.step, if_pos ⟨hpos, hback⟩]
  rw [build, run_error hrun hstep hlt]
  rfl

theorem build_openCycle (h : m.HasDegree) (hzero : orderOf m.x = 0) :
    build T m = .misconfigured "log table construction" (.openCycle m) := by
  have hnever (i : Nat) (hpos : 0 < i) : m.xPower i ≠ 1 := fun hone =>
    orderOf_eq_zero_iff'.mp hzero i hpos ((h.xPower_eq_one_iff i).mp hone)
  obtain ⟨walk, hrun, hafter⟩ := run_after (T := T) m m.width.order
    (fun i _ hreturn => hnever i hreturn.1 hreturn.2) fun i _ => h.xPower_le i
  have hpower : walk.power ≠ 1 := by
    rw [hafter.power]
    exact hnever _ m.width.order_pos
  simp only [build, hrun, Outcome.ok_bind, hpower, if_false]

/-- A polynomial of the right degree modulo which `x` does not have the order
`2^w - 1` is refused. -/
theorem build_misconfigured (h : m.HasDegree) (hne : orderOf m.x ≠ m.width.order) :
    ∃ why, build T m = .misconfigured "log table construction" why := by
  rcases Nat.eq_zero_or_pos (orderOf m.x) with hzero | hpos
  · exact ⟨_, build_openCycle h hzero⟩
  · exact ⟨_, build_shortCycle h hpos (lt_of_le_of_ne m.orderOf_x_le hne)⟩

/-- A walk around an admissible polynomial leaves a logarithm for every nonzero
element: powers below the order are different, so no later step overwrites an entry. -/
theorem After.exists_log_entry (h : m.Admissible) {walk : PowerWalk T}
    (hafter : After m m.width.order walk) {a : Nat} (ha : a < 2 ^ m.width.bits) (hne : a ≠ 0) :
    ∃ i < m.width.order, m.residue a = m.x ^ i ∧
      walk.log[a]? = some (StoredWord.store (UInt32.ofNat i)) := by
  have hresidue : m.residue a ≠ 0 := by
    intro hzero
    exact hne (m.residue_inj ha m.represents_zero.lt (hzero.trans m.residue_zero.symm))
  obtain ⟨i, hi, hpower⟩ := h.exists_x_pow hresidue
  have heq : a = (m.xPower i).toNat :=
    (m.represents_residue ha).unique (hpower ▸ h.degree.represents_xPower i)
  have hlast : ∀ j < m.width.order, m.xPower j = m.xPower i → j ≤ i := by
    intro j hj hij
    have hpowers : m.x ^ j = m.x ^ i := by
      rw [← (h.degree.represents_xPower j).residue_eq, hij,
        (h.degree.represents_xPower i).residue_eq]
    exact (h.x_pow_inj hj hi hpowers).le
  refine ⟨i, hi, hpower, ?_⟩
  rw [heq]
  exact hafter.log_entry i hi hlast

/-- The powers below the order, entered twice, are the powers below twice the order. -/
theorem After.antilog_twice (h : m.Admissible) {walk : PowerWalk T}
    (hafter : After m m.width.order walk) :
    (walk.antilog ++ walk.antilog).toList =
      (List.range (2 * m.width.order)).map fun i => StoredWord.store (m.xPower i).toUInt32 := by
  have hrepeats (i : Nat) : m.xPower (m.width.order + i) = m.xPower i := by
    rw [← h.xPower_mod, Nat.add_mod_left, h.xPower_mod]
  rw [Array.toList_append, hafter.antilog, Nat.two_mul, List.range_add, List.map_append,
    List.map_map]
  simp only [Function.comp_def, hrepeats]

/-- The tables of an admissible polynomial, stored in words that have room for its
elements. -/
theorem build_of_admissible (h : m.Admissible) (hroom : m.width.order < StoredWord.values T) :
    ∃ t : Logarithms T, build T m = .ok t ∧ t.Tabulates m := by
  have horder := m.width.order_lt
  obtain ⟨walk, hafter, hbuild⟩ := build_eq_ok (T := T) h.degree h.orderOf_x
  refine ⟨_, hbuild, rfl, ?_, ?_⟩
  · intro a ha hne
    have hne' : a.toNat ≠ 0 := fun hzero => hne (UInt32.toNat_inj.mp hzero)
    obtain ⟨i, hi, hpower, hentry⟩ := After.exists_log_entry h hafter ha hne'
    have hword : (UInt32.ofNat i).toNat = i := UInt32.toNat_ofNat_of_lt' (hi.trans horder)
    refine ⟨i, hi, ?_, hpower⟩
    rw [logOf, Outcome.entry_of_getElem? hentry, Outcome.ok_bind,
      StoredWord.load_store (by omega), hword]
    rfl
  · intro i hi
    have hle := h.degree.xPower_le i
    have hword : (m.xPower i).toUInt32.toNat = (m.xPower i).toNat := by
      rw [UInt64.toNat_toUInt32, Nat.mod_eq_of_lt (by omega)]
    have hentry : (walk.antilog ++ walk.antilog)[i]? =
        some (StoredWord.store (m.xPower i).toUInt32) := by
      rw [← Array.getElem?_toList, After.antilog_twice h hafter, List.getElem?_map,
        List.getElem?_range hi, Option.map_some]
    refine ⟨(m.xPower i).toUInt32, ?_, ?_⟩
    · rw [powerOf, Outcome.entry_of_getElem? hentry, Outcome.ok_bind,
        StoredWord.load_store (by omega)]
      rfl
    · rw [hword]
      exact h.degree.represents_xPower i

/-- Any stretch of the table of powers has the powers of its exponents, in order, up to twice
the order, past which nothing is read. -/
theorem window_antilog (h : m.Admissible) (hbuild : build T m = .ok t) (start count : Nat) :
    Outcome.window t.antilog start count =
      if start + count ≤ 2 * m.width.order then
        .ok ((List.range' start count).map fun i => StoredWord.store (m.xPower i).toUInt32)
      else .fault .indexPastTable := by
  obtain ⟨walk, hafter, hwalk⟩ := build_eq_ok (T := T) h.degree h.orderOf_x
  obtain rfl := Except.ok.inj (hbuild.symm.trans hwalk)
  have htable := After.antilog_twice h hafter
  have hsize : (walk.antilog ++ walk.antilog).size = 2 * m.width.order := by
    rw [← Array.length_toList, htable, List.length_map, List.length_range]
  rw [Outcome.window, hsize]
  split
  · next hle =>
    obtain ⟨rest, hrest⟩ := Nat.exists_eq_add_of_le hle
    have hstretch : ((List.range (2 * m.width.order)).drop start).take count =
        List.range' start count := by
      rw [hrest, List.range_eq_range', List.drop_range', Nat.zero_add, Nat.mul_one,
        Nat.add_assoc, Nat.add_sub_cancel_left, ← List.range'_append_1,
        List.take_left' List.length_range']
    rw [htable, ← List.map_drop, ← List.map_take, hstretch]
  · rfl

section Arithmetic

variable {a b : UInt32} {r s : m.Residue}

theorem Tabulates.gives_mul (h : t.Tabulates m) (ha : m.Represents a.toNat r)
    (hb : m.Represents b.toNat s) : m.Gives (t.mul a b) (r * s) := by
  by_cases hzero : a = 0 ∨ b = 0
  · have hproduct : r * s = 0 := by
      rcases hzero with rfl | rfl
      · rw [← ha.residue_eq, UInt32.toNat_zero, Modulus.residue_zero, zero_mul]
      · rw [← hb.residue_eq, UInt32.toNat_zero, Modulus.residue_zero, mul_zero]
    rw [mul, if_pos hzero, hproduct]
    exact ⟨0, rfl, m.represents_zero⟩
  · rw [not_or] at hzero
    obtain ⟨i, hi, hlog, hr⟩ := h.logOf a ha.lt hzero.1
    obtain ⟨j, hj, hlog', hs⟩ := h.logOf b hb.lt hzero.2
    have hpower := h.powerOf (i + j) (by omega)
    rw [pow_add, ← hr, ← hs, ha.residue_eq, hb.residue_eq] at hpower
    simpa [mul, hzero.1, hzero.2, hlog, hlog'] using hpower

/-- A quotient by logarithms is the product with the inverse: the order is added to
the difference of the logarithms so that it is not negative. -/
theorem Tabulates.gives_div (h : t.Tabulates m) (hm : m.Admissible)
    (ha : m.Represents a.toNat r) (hb : m.Represents b.toNat s) (hne : b ≠ 0) {i : m.Residue}
    (hinverse : s * i = 1) : m.Gives (t.div a b) (r * i) := by
  by_cases hzero : a = 0
  · have hquotient : r * i = 0 := by
      rw [← ha.residue_eq, hzero, UInt32.toNat_zero, Modulus.residue_zero, zero_mul]
    rw [div, if_pos hzero, hquotient]
    exact ⟨0, rfl, m.represents_zero⟩
  · obtain ⟨j, hj, hlog, hr⟩ := h.logOf a ha.lt hzero
    obtain ⟨k, hk, hlog', hs⟩ := h.logOf b hb.lt hne
    have hpower := h.powerOf (j + m.width.order - k) (by omega)
    have hquotient : m.x ^ (j + m.width.order - k) = r * i := by
      have hcancel : m.x ^ (j + m.width.order - k) * s = r := by
        rw [← hb.residue_eq, hs, ← pow_add, Nat.sub_add_cancel (by omega), pow_add,
          hm.x_pow_order, mul_one, ← hr, ha.residue_eq]
      rw [← hcancel, mul_assoc, hinverse, mul_one]
    rw [hquotient] at hpower
    simpa [div, hzero, hlog, hlog', h.order_eq] using hpower

theorem Tabulates.gives_inv (h : t.Tabulates m) (hm : m.Admissible)
    (ha : m.Represents a.toNat r) (hne : a ≠ 0) {i : m.Residue} (hinverse : r * i = 1) :
    m.Gives (t.inv a) i := by
  obtain ⟨j, hj, hlog, hr⟩ := h.logOf a ha.lt hne
  have hpower := h.powerOf (m.width.order - j) (by omega)
  have hvalue : m.x ^ (m.width.order - j) = i := by
    have hcancel := hm.x_pow_mul_x_pow hj.le
    rw [← hr, ha.residue_eq] at hcancel
    calc
      m.x ^ (m.width.order - j) = (r * i) * m.x ^ (m.width.order - j) := by
        rw [hinverse, one_mul]
      _ = i * (r * m.x ^ (m.width.order - j)) := by ring
      _ = i := by rw [hcancel, mul_one]
  rw [hvalue] at hpower
  simpa [inv, hlog, h.order_eq] using hpower

/-- A power by logarithms: the exponent may be reduced before and after it is multiplied,
because the powers of `x` repeat after the order. -/
theorem Tabulates.gives_pow (h : t.Tabulates m) (hm : m.Admissible)
    (ha : m.Represents a.toNat r) (e : Nat) : m.Gives (t.pow a e) (r ^ e) := by
  by_cases he : e = 0
  · rw [pow, if_pos he, he, pow_zero]
    exact ⟨1, rfl, m.represents_one⟩
  by_cases hzero : a = 0
  · have hr : r = 0 := by
      rw [← ha.residue_eq, hzero, UInt32.toNat_zero, Modulus.residue_zero]
    rw [pow, if_neg he, if_pos hzero, hr, zero_pow he]
    exact ⟨0, rfl, m.represents_zero⟩
  · obtain ⟨i, _, hlog, hr⟩ := h.logOf a ha.lt hzero
    have hlt := Nat.mod_lt (i * (e % m.width.order)) m.width.order_pos
    have hpower := h.powerOf (i * (e % m.width.order) % m.width.order) (by omega)
    have hvalue : m.x ^ (i * (e % m.width.order) % m.width.order) = r ^ e := by
      rw [hm.x_pow_mod, Nat.mul_comm, pow_mul, hm.x_pow_mod, ← ha.residue_eq, hr, ← pow_mul,
        ← pow_mul, Nat.mul_comm]
    rw [hvalue] at hpower
    simpa [pow, he, hzero, hlog, h.order_eq] using hpower

end Arithmetic

section Congr

variable {S : Type} [StoredWord S] {u : Logarithms S} {a b : UInt32}

/-- Products are the same in two tables that have the same powers and, for the factors that are
looked up, the same logarithms. -/
theorem mul_congr (hpower : ∀ i, u.powerOf i = t.powerOf i)
    (ha : a ≠ 0 → u.logOf a = t.logOf a) (hb : b ≠ 0 → u.logOf b = t.logOf b) :
    u.mul a b = t.mul a b := by
  unfold mul
  split
  · rfl
  · next hne =>
    rw [not_or] at hne
    simp only [ha hne.1, hb hne.2, hpower]

theorem div_congr (horder : u.order = t.order) (hpower : ∀ i, u.powerOf i = t.powerOf i)
    (ha : a ≠ 0 → u.logOf a = t.logOf a) (hb : u.logOf b = t.logOf b) :
    u.div a b = t.div a b := by
  unfold div
  split
  · rfl
  · next hne => simp only [ha hne, hb, hpower, horder]

theorem inv_congr (horder : u.order = t.order) (hpower : ∀ i, u.powerOf i = t.powerOf i)
    (ha : u.logOf a = t.logOf a) : u.inv a = t.inv a := by
  simp only [inv, ha, hpower, horder]

theorem pow_congr (horder : u.order = t.order) (hpower : ∀ i, u.powerOf i = t.powerOf i)
    (ha : a ≠ 0 → u.logOf a = t.logOf a) (e : Nat) : u.pow a e = t.pow a e := by
  unfold pow
  split
  · rfl
  · split
    · rfl
    · next hne => simp only [ha hne, hpower, horder]

end Congr

end Logarithms

end ErasureField
