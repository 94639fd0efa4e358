import ErasureField.Proofs.TableArithmetic

/-!
The word that the entries of tables are stored in. A walk never reads what it has entered: how
it goes on and where it enters a power depend on the power it stands at and on the size of the
table alone. So entries may be carried over from one word to another before a step or after it,
and the walks end in the same way. At every width the entries of words can be cut to bytes, and
at width 8, where all entries fit a byte, those of bytes can be taken for words, so that both
tables hold the same numbers there.
-/

namespace ErasureField

section Entries

variable {S T : Type} {f : S → T}

theorem Outcome.entry_map (f : S → T) (table : Array S) (i : Nat) :
    entry (table.map f) i = (entry table i).map f := by
  rw [entry, entry, Array.getElem?_map]
  cases table[i]? <;> rfl

/-- An outcome whose value is mapped fails as before, or has the image of its value. -/
theorem Outcome.map_cases {α β : Type} {outcome : Outcome α} {image : Outcome β} {g : α → β}
    (h : image = outcome.map g) :
    (∃ failure, image = .error failure ∧ outcome = .error failure) ∨
      ∃ value, image = .ok (g value) ∧ outcome = .ok value := by
  cases outcome with
  | error failure => exact Or.inl ⟨failure, h, rfl⟩
  | ok value => exact Or.inr ⟨value, h, rfl⟩

def PowerWalk.map (f : S → T) (walk : PowerWalk S) : PowerWalk T where
  power := walk.power
  log := walk.log.map f
  antilog := walk.antilog.map f

@[simp]
theorem PowerWalk.power_map (walk : PowerWalk S) : (walk.map f).power = walk.power := rfl

@[simp]
theorem PowerWalk.log_map (walk : PowerWalk S) : (walk.map f).log = walk.log.map f := rfl

@[simp]
theorem PowerWalk.antilog_map (walk : PowerWalk S) :
    (walk.map f).antilog = walk.antilog.map f := rfl

def Logarithms.map (f : S → T) (t : Logarithms S) : Logarithms T where
  order := t.order
  log := t.log.map f
  antilog := t.antilog.map f

end Entries

variable {S T : Type} [StoredWord S] [StoredWord T] {m : Modulus} {f : S → T} {bound : Nat}

namespace StoredWord

/-- A function from one word to another carries over what is stored for a number, if the number
is not above a bound. -/
def Carries (f : S → T) (bound : Nat) : Prop :=
  ∀ v : UInt32, v.toNat ≤ bound → f (store v) = store v

/-- Words cut to bytes are what would have been stored in bytes. -/
theorem carries_toUInt8 (bound : Nat) : Carries UInt16.toUInt8 bound :=
  fun v _ => v.toUInt8_toUInt16

/-- Bytes taken for words are what would have been stored in words, if a byte has room for it. -/
theorem carries_toUInt16 (h : bound < 2 ^ 8) : Carries UInt8.toUInt16 bound := by
  intro v hv
  have hbyte : v.toNat % 2 ^ 8 = v.toNat := Nat.mod_eq_of_lt (by omega)
  have hword : v.toNat % 2 ^ 16 = v.toNat := Nat.mod_eq_of_lt (by omega)
  show v.toUInt8.toUInt16 = v.toUInt16
  rw [← UInt16.toNat_inj, UInt8.toNat_toUInt16, UInt32.toNat_toUInt8, UInt32.toNat_toUInt16,
    hbyte, hword]

end StoredWord

open StoredWord

namespace PowerWalk

variable {walk : PowerWalk S} {i : Nat}

theorem map_start (hf : Carries f bound) : (start bound).map f = start bound := by
  have horder : f (store (UInt32.ofNat bound)) = store (UInt32.ofNat bound) :=
    hf _ (Nat.mod_le _ _)
  simp [map, start, horder]

theorem size_log_step {next : PowerWalk S} (h : walk.step m i = .ok next) :
    next.log.size = walk.log.size := by
  unfold step at h
  split at h
  · cases h
  · split at h
    · cases h
      exact Array.size_setIfInBounds
    · cases h

/-- Entries may be carried over before a step or after it. Neither its two tests nor the places
that it writes depend on an entry. -/
theorem step_map (hf : Carries f bound) (hsize : walk.log.size = bound + 1) (hi : i ≤ bound) :
    (walk.map f).step m i = (walk.step m i).map (map f) := by
  by_cases hback : 0 < i ∧ walk.power = 1
  · rw [step, step, power_map, if_pos hback, if_pos hback]
    rfl
  by_cases htable : walk.power.toNat < walk.log.size
  · have hexponent : f (store (UInt32.ofNat i)) = store (UInt32.ofNat i) :=
      hf _ ((Nat.mod_le _ _).trans hi)
    have hpower : f (store walk.power.toUInt32) = store walk.power.toUInt32 := by
      apply hf
      rw [UInt64.toNat_toUInt32]
      exact (Nat.mod_le _ _).trans (by omega)
    rw [step, step, power_map, log_map, antilog_map, Array.size_map, if_neg hback, if_neg hback,
      if_pos htable, if_pos htable, Except.map, map, Array.map_setIfInBounds, Array.map_push,
      hexponent, hpower]
  · rw [step, step, power_map, log_map, Array.size_map, if_neg hback, if_neg hback,
      if_neg htable, if_neg htable]
    rfl

/-- Entries may be carried over before a walk or after it: the size of the table is all that the
rest of a walk reads of what is entered. -/
theorem foldlM_step_map (hf : Carries f bound) (hsize : walk.log.size = bound + 1)
    (exponents : List Nat) (hexponents : ∀ i ∈ exponents, i ≤ bound) :
    exponents.foldlM (step m) (walk.map f) = (exponents.foldlM (step m) walk).map (map f) := by
  induction exponents generalizing walk with
  | nil => rfl
  | cons i rest ih =>
    rw [List.foldlM_cons, List.foldlM_cons,
      step_map hf hsize (hexponents i List.mem_cons_self)]
    cases hstep : walk.step m i with
    | error failure => rfl
    | ok next =>
      exact ih ((size_log_step hstep).trans hsize) fun j hj =>
        hexponents j (List.mem_cons_of_mem i hj)

end PowerWalk

namespace Logarithms

/-- The construction of tables ends in one word as it does in another, and its tables have the
entries carried over. -/
theorem build_map (hf : Carries f m.width.order) : build T m = (build S m).map (map f) := by
  let start : PowerWalk S := PowerWalk.start m.width.order
  have hsize : start.log.size = m.width.order + 1 := Array.size_replicate
  have hwalk := PowerWalk.foldlM_step_map (m := m) hf hsize (List.range m.width.order)
    fun i hi => (List.mem_range.mp hi).le
  rw [PowerWalk.map_start hf] at hwalk
  rw [build, build, hwalk]
  cases (List.range m.width.order).foldlM (PowerWalk.step m) start with
  | error failure => rfl
  | ok walk =>
    by_cases hclosed : walk.power = 1
    · simp only [Except.map, Outcome.ok_bind, PowerWalk.power_map, hclosed, if_true, map,
        PowerWalk.log_map, PowerWalk.antilog_map, Array.map_append]
    · simp only [Except.map, Outcome.ok_bind, PowerWalk.power_map, hclosed, if_false]
      rfl

section Lookups

variable (hload : ∀ entry, load (f entry) = load entry) (t : Logarithms S)
include hload

theorem logOf_map (a : UInt32) : (t.map f).logOf a = t.logOf a := by
  rw [logOf, logOf, map, Outcome.entry_map]
  cases Outcome.entry t.log a.toNat with
  | error failure => rfl
  | ok entry => exact congrArg (fun v => Except.ok v.toNat) (hload entry)

theorem powerOf_map (i : Nat) : (t.map f).powerOf i = t.powerOf i := by
  rw [powerOf, powerOf, map, Outcome.entry_map]
  cases Outcome.entry t.antilog i with
  | error failure => rfl
  | ok entry => exact congrArg Except.ok (hload entry)

end Lookups

/-- Tables of bytes are those of words with every entry cut to a byte, at every width. -/
theorem build_bytes (m : Modulus) : build UInt8 m = (build UInt16 m).map (map UInt16.toUInt8) :=
  build_map (carries_toUInt8 _)

/-- At width 8 nothing is lost when entries are cut. -/
theorem build_words (hw : m.width = .w8) :
    build UInt16 m = (build UInt8 m).map (map UInt8.toUInt16) :=
  build_map (carries_toUInt16 (by rw [hw]; decide))

theorem map_toNat_cut (entries : Array UInt16) :
    (entries.map UInt16.toUInt8).map UInt8.toNat = entries.map fun entry => entry.toNat % 256 := by
  rw [Array.map_map]
  exact Array.map_congr_left fun entry _ => entry.toNat_toUInt8

theorem map_toNat_widened (entries : Array UInt8) :
    (entries.map UInt8.toUInt16).map UInt16.toNat = entries.map UInt8.toNat := by
  rw [Array.map_map]
  exact Array.map_congr_left fun entry _ => entry.toNat_toUInt16

/-- The word that entries are stored in has no part in the construction of tables. For every
polynomial it fails in bytes and in words of two bytes in the same way, a refusal or a break
off, or it succeeds in both, and then every entry in bytes is the remainder of that in words by
256. At width 8 the entries are the same numbers, and the tables answer alike for all
arguments. -/
theorem build_in_either_word (m : Modulus) :
    ((∃ failure, build UInt8 m = .error failure ∧ build UInt16 m = .error failure) ∨
      ∃ bytes words, build UInt8 m = .ok bytes ∧ build UInt16 m = .ok words ∧
        bytes.order = words.order ∧
        bytes.log.map UInt8.toNat = words.log.map (fun entry => entry.toNat % 256) ∧
        bytes.antilog.map UInt8.toNat = words.antilog.map fun entry => entry.toNat % 256) ∧
    (m.width = .w8 → ∀ bytes words, build UInt8 m = .ok bytes → build UInt16 m = .ok words →
      bytes.log.map UInt8.toNat = words.log.map UInt16.toNat ∧
      bytes.antilog.map UInt8.toNat = words.antilog.map UInt16.toNat ∧
      bytes.order = words.order ∧
      (∀ a, bytes.logOf a = words.logOf a) ∧
      (∀ i, bytes.powerOf i = words.powerOf i) ∧
      (∀ a b, bytes.mul a b = words.mul a b) ∧
      (∀ a b, bytes.div a b = words.div a b) ∧
      (∀ a, bytes.inv a = words.inv a) ∧
      ∀ a e, bytes.pow a e = words.pow a e) := by
  constructor
  · rcases Outcome.map_cases (build_bytes m) with hfailed | ⟨words, hbytes, hwords⟩
    · exact Or.inl hfailed
    · exact Or.inr ⟨_, words, hbytes, hwords, rfl, map_toNat_cut words.log,
        map_toNat_cut words.antilog⟩
  · intro hw bytes words hbytes hwords
    have hwidened := build_words hw
    rw [hbytes, hwords] at hwidened
    obtain rfl : words = bytes.map UInt8.toUInt16 := Except.ok.inj hwidened
    have hload (entry : UInt8) : load entry.toUInt16 = load entry := entry.toUInt32_toUInt16
    have horder : bytes.order = (bytes.map UInt8.toUInt16).order := rfl
    have hlog (a : UInt32) : bytes.logOf a = (bytes.map UInt8.toUInt16).logOf a :=
      (logOf_map hload bytes a).symm
    have hpower (i : Nat) : bytes.powerOf i = (bytes.map UInt8.toUInt16).powerOf i :=
      (powerOf_map hload bytes i).symm
    refine ⟨(map_toNat_widened bytes.log).symm, (map_toNat_widened bytes.antilog).symm, horder,
      hlog, hpower, ?_, ?_, ?_, ?_⟩
    · intro a b
      exact mul_congr hpower (fun _ => hlog a) fun _ => hlog b
    · intro a b
      exact div_congr horder hpower (fun _ => hlog a) (hlog b)
    · intro a
      exact inv_congr horder hpower (hlog a)
    · intro a e
      exact pow_congr horder hpower (fun _ => hlog a) e

/-- The narrowest field: its tables in words of two bytes give the product that is known from
those in bytes, and both have the same entry for zero. -/
theorem build_in_either_word_w8 :
    ∃ bytes words, build UInt8 (Modulus.ofWidth .w8) = .ok bytes ∧
      build UInt16 (Modulus.ofWidth .w8) = .ok words ∧
      bytes.mul 0x80 2 = .ok 0x1D ∧ words.mul 0x80 2 = .ok 0x1D ∧
      bytes.logOf 0 = words.logOf 0 := by
  have hadmissible := Modulus.admissible_ofWidth .w8
  obtain ⟨bytes, hbytes, htables⟩ := build_of_admissible (T := UInt8) hadmissible (by decide)
  obtain ⟨words, hwords, _⟩ := build_of_admissible (T := UInt16) hadmissible (by decide)
  obtain ⟨_, hsame⟩ := build_in_either_word (Modulus.ofWidth .w8)
  obtain ⟨_, _, _, hlog, _, hmul, _⟩ := hsame rfl bytes words hbytes hwords
  have ha := (Modulus.ofWidth .w8).represents_of_le_order (a := 0x80) (by decide)
  have hb := (Modulus.ofWidth .w8).represents_of_le_order (a := 2) (by decide)
  have hvalue : ((Modulus.ofWidth .w8).mul 0x80 2).toNat = 0x1D := by decide +kernel
  have hrepresents := hadmissible.degree.represents_mul (a := 0x80) (b := 2) ha hb
  rw [hvalue] at hrepresents
  have hproduct : bytes.mul 0x80 2 = .ok 0x1D :=
    (htables.gives_mul (a := 0x80) (b := 2) ha hb).eq_ok hrepresents
  exact ⟨bytes, words, hbytes, hwords, hproduct, (hmul 0x80 2).symm.trans hproduct, hlog 0⟩

end Logarithms

end ErasureField
