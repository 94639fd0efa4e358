import ErasureField.Width.Reading
import Mathlib.Algebra.Group.Nat.Defs
import Mathlib.Data.List.DropRight
import Mathlib.Tactic.Common

/-!
Which texts name a width. A text is what its blanks, its marks and its digits make it: a
core that neither begins nor ends with a blank is what trimming leaves, one letter and one
plus sign may come before the digits, and digits with a given value are the shortest ones
with zeros before them. A text without these parts, or with digits whose value is no number
of 32 bits, is refused for the text, and one with another value for the value.
-/

namespace ErasureField

namespace Text

variable {text core digits : List Char} {c : Char} {value : Nat}

structure Trims (text core : List Char) : Prop where
  split : ∃ before after, text = before ++ core ++ after ∧
    (∀ c ∈ before, isBlank c = true) ∧ ∀ c ∈ after, isBlank c = true
  first : ∀ c ∈ core.head?, isBlank c = false
  last : ∀ c ∈ core.getLast?, isBlank c = false

theorem trim_eq_rdropWhile (text : List Char) :
    trim text = (text.dropWhile isBlank).rdropWhile isBlank := rfl

theorem trims_trim (text : List Char) : Trims text (trim text) := by
  rw [trim_eq_rdropWhile]
  have hrest := List.rdropWhile_append_rtakeWhile (p := isBlank) (l := text.dropWhile isBlank)
  constructor
  · refine ⟨text.takeWhile isBlank, (text.dropWhile isBlank).rtakeWhile isBlank, ?_, ?_, ?_⟩
    · rw [List.append_assoc, hrest, List.takeWhile_append_dropWhile]
    · exact fun c => List.mem_takeWhile_imp
    · exact fun c => List.mem_rtakeWhile_imp
  · intro c hc
    obtain ⟨rest, hcore⟩ := List.head?_eq_some_iff.mp hc
    have hhead : (text.dropWhile isBlank).head? = some c := by
      rw [← hrest, hcore]
      rfl
    have hstop := List.head?_dropWhile_not isBlank text
    rwa [hhead] at hstop
  · intro c hc
    have hne : (text.dropWhile isBlank).rdropWhile isBlank ≠ [] := by
      intro hnil
      rw [hnil] at hc
      cases hc
    have hstop := List.rdropWhile_last_not isBlank (text.dropWhile isBlank) hne
    rw [Option.mem_def, List.getLast?_eq_some_getLast hne, Option.some.injEq] at hc
    rwa [hc, Bool.not_eq_true] at hstop

/-- There is one core to a text, and trimming finds it. -/
theorem Trims.trim_eq (h : Trims text core) : trim text = core := by
  obtain ⟨⟨before, after, rfl, hbefore, hafter⟩, hfirst, hlast⟩ := h
  have hstart : (before ++ core ++ after).dropWhile isBlank =
      (core ++ after).dropWhile isBlank := by
    rw [List.append_assoc, List.dropWhile_append_of_pos hbefore]
  have hend : (core ++ after).rdropWhile isBlank = core := by
    have hblanks : ∀ c ∈ after.reverse, isBlank c = true := by simpa using hafter
    rw [List.rdropWhile, List.reverse_append, List.dropWhile_append_of_pos hblanks]
    refine List.rdropWhile_eq_self_iff.mpr ?_
    intro hne
    rw [Bool.not_eq_true]
    exact hlast _ (List.getLast?_eq_some_getLast hne)
  rw [trim_eq_rdropWhile, hstart]
  cases core with
  | nil => rw [List.nil_append, List.dropWhile_eq_nil_iff.mpr hafter, List.rdropWhile_nil]
  | cons c rest =>
    have hletter : ¬ isBlank c = true := by simpa using hfirst
    rw [List.cons_append, List.dropWhile_cons_of_neg hletter, ← List.cons_append, hend]

theorem isDigit_eq (c : Char) : isDigit c = c.isDigit := by
  rw [Bool.eq_iff_iff, isDigit, decide_eq_true_eq, Char.isDigit_iff_toNat]
  rfl

theorem digitsValue_eq (digits : List Char) :
    digitsValue digits = Nat.ofDigitChars 10 digits 0 :=
  Nat.ofDigitChars_eq_foldl.symm

/-- A text is read as a number when it has digits and nothing else. -/
theorem decimal?_eq_some_iff :
    decimal? text = some value ↔
      text ≠ [] ∧ (∀ c ∈ text, c.isDigit = true) ∧ Nat.ofDigitChars 10 text 0 = value := by
  rw [decimal?, Option.ite_none_right_eq_some, Bool.and_eq_true, List.all_eq_true,
    digitsValue_eq, Option.some.injEq, and_assoc]
  simp only [isDigit_eq, Bool.not_eq_true', List.isEmpty_eq_false_iff]

theorem exists_digitChar (h : c.isDigit = true) : ∃ d < 10, c = Nat.digitChar d := by
  obtain ⟨hlow, hhigh⟩ := Char.isDigit_iff_toNat.mp h
  have hzero : '0'.toNat = 48 := rfl
  have hnine : '9'.toNat = 57 := rfl
  have hd : c.toNat - 48 < 10 := by omega
  refine ⟨c.toNat - 48, hd, ?_⟩
  rw [← Char.toNat_inj, Nat.toNat_digitChar_of_lt_ten hd]
  omega

/-- A digit more makes ten times the value, and the digit. -/
theorem ofDigitChars_append_digitChar {d : Nat} (hd : d < 10) (digits : List Char) :
    Nat.ofDigitChars 10 (digits ++ [Nat.digitChar d]) 0 =
      10 * Nat.ofDigitChars 10 digits 0 + d := by
  rw [Nat.ofDigitChars_append, Nat.ofDigitChars_cons_digitChar_of_lt_ten hd, Nat.ofDigitChars_nil]

theorem eq_zeros_of_value_eq_zero (hdigits : ∀ c ∈ digits, c.isDigit = true)
    (hvalue : Nat.ofDigitChars 10 digits 0 = 0) : ∃ zeros, digits = List.replicate zeros '0' := by
  induction digits using List.reverseRecOn with
  | nil => exact ⟨0, rfl⟩
  | append_singleton high c ih =>
    obtain ⟨d, hd, rfl⟩ := exists_digitChar (hdigits c (by simp))
    rw [ofDigitChars_append_digitChar hd] at hvalue
    obtain rfl : d = 0 := by omega
    obtain ⟨zeros, rfl⟩ := ih (fun c hc => hdigits c (by simp [hc])) (by omega)
    exact ⟨zeros + 1, (List.replicate_succ' ..).symm⟩

/-- Digits whose value is not zero are those that the value is written with, after as many
zeros as there may be. -/
theorem eq_zeros_append (hdigits : ∀ c ∈ digits, c.isDigit = true)
    (hvalue : Nat.ofDigitChars 10 digits 0 = value) (hne : value ≠ 0) :
    ∃ zeros, digits = List.replicate zeros '0' ++ Nat.toDigits 10 value := by
  induction digits using List.reverseRecOn generalizing value with
  | nil => exact absurd hvalue.symm hne
  | append_singleton high c ih =>
    have hhigh : ∀ c ∈ high, c.isDigit = true := fun c hc => hdigits c (by simp [hc])
    obtain ⟨d, hd, rfl⟩ := exists_digitChar (hdigits c (by simp))
    rw [ofDigitChars_append_digitChar hd] at hvalue
    subst hvalue
    by_cases hzero : Nat.ofDigitChars 10 high 0 = 0
    · obtain ⟨zeros, hzeros⟩ := eq_zeros_of_value_eq_zero hhigh hzero
      refine ⟨zeros, ?_⟩
      rw [hzero, Nat.mul_zero, Nat.zero_add, Nat.toDigits_of_lt_base hd, hzeros]
    · obtain ⟨zeros, hzeros⟩ := ih hhigh rfl hzero
      refine ⟨zeros, ?_⟩
      have hwritten := Nat.toDigits_append_toDigits (b := 10) (by omega)
        (Nat.pos_of_ne_zero hzero) hd
      rw [← hwritten, Nat.toDigits_of_lt_base hd, ← List.append_assoc, ← hzeros]

end Text

namespace Width

variable {text core digits : List Char} {bits : Nat} {w : Width}

def written : Width → List Char
  | .w8 => ['8']
  | .w16 => ['1', '6']
  | .w32 => ['3', '2']

theorem written_eq (w : Width) : w.written = Nat.toDigits 10 w.bits := by
  cases w <;> decide

/-- Between the blanks of a text there stand a letter w of either case or none, a plus sign
or none, and then these characters. -/
def Spells (text digits : List Char) : Prop :=
  ∃ letter ∈ [[], ['w'], ['W']], ∃ plus ∈ [[], ['+']],
    Text.Trims text (letter ++ plus ++ digits)

/-- A text names a width by its number of bits, with any number of zeros before it. -/
def Names (text : List Char) (w : Width) : Prop :=
  ∃ zeros, Spells text (List.replicate zeros '0' ++ w.written)

/-- A text states a number of bits, by digits whose value is below `2^32`. -/
def States (text : List Char) (bits : Nat) : Prop :=
  bits < 2 ^ 32 ∧ ∃ digits, digits ≠ [] ∧ (∀ c ∈ digits, c.isDigit = true) ∧
    Nat.ofDigitChars 10 digits 0 = bits ∧ Spells text digits

theorem exists_letter (core : List Char) :
    ∃ letter ∈ [[], ['w'], ['W']], core = letter ++ afterLetter core := by
  fun_cases afterLetter core with
  | case1 rest => exact ⟨['w'], by simp, rfl⟩
  | case2 rest => exact ⟨['W'], by simp, rfl⟩
  | case3 => exact ⟨[], by simp, rfl⟩

theorem exists_plus (core : List Char) :
    ∃ plus ∈ [[], ['+']], core = plus ++ afterPlus core := by
  fun_cases afterPlus core with
  | case1 rest => exact ⟨['+'], by simp, rfl⟩
  | case2 => exact ⟨[], by simp, rfl⟩

theorem afterLetter_digits (hdigits : ∀ c ∈ digits, c.isDigit = true) :
    afterLetter digits = digits := by
  fun_cases afterLetter digits with
  | case1 rest => exact absurd (hdigits 'w' (by simp)) (by decide)
  | case2 rest => exact absurd (hdigits 'W' (by simp)) (by decide)
  | case3 => rfl

theorem afterPlus_digits (hdigits : ∀ c ∈ digits, c.isDigit = true) :
    afterPlus digits = digits := by
  fun_cases afterPlus digits with
  | case1 rest => exact absurd (hdigits '+' (by simp)) (by decide)
  | case2 => rfl

/-- What is left of a trimmed text after its marks are the digits that it spells. No digit is
a mark, so that no more is taken away than the marks. -/
theorem spells_iff (hdigits : ∀ c ∈ digits, c.isDigit = true) :
    Spells text digits ↔ afterPlus (afterLetter (Text.trim text)) = digits := by
  constructor
  · rintro ⟨letter, hletter, plus, hplus, htrims⟩
    rw [htrims.trim_eq]
    have hsigned : afterLetter (plus ++ digits) = plus ++ digits := by
      simp only [List.mem_cons, List.not_mem_nil, or_false] at hplus
      rcases hplus with rfl | rfl
      · exact afterLetter_digits hdigits
      · rfl
    have hunsigned : afterPlus (plus ++ digits) = digits := by
      simp only [List.mem_cons, List.not_mem_nil, or_false] at hplus
      rcases hplus with rfl | rfl
      · exact afterPlus_digits hdigits
      · rfl
    have hbare : afterLetter (letter ++ (plus ++ digits)) = plus ++ digits := by
      simp only [List.mem_cons, List.not_mem_nil, or_false] at hletter
      rcases hletter with rfl | rfl | rfl
      · exact hsigned
      · rfl
      · rfl
    rw [List.append_assoc, hbare, hunsigned]
  · rintro rfl
    obtain ⟨letter, hletter, hcore⟩ := exists_letter (Text.trim text)
    obtain ⟨plus, hplus, hrest⟩ := exists_plus (afterLetter (Text.trim text))
    refine ⟨letter, hletter, plus, hplus, ?_⟩
    rw [List.append_assoc, ← hrest, ← hcore]
    exact Text.trims_trim text

theorem statedBits?_eq_some_iff : statedBits? text = some bits ↔ States text bits := by
  have hlimit : readingLimit = 2 ^ 32 := rfl
  rw [statedBits?, Option.filter_eq_some_iff, decide_eq_true_eq, Text.decimal?_eq_some_iff,
    hlimit]
  constructor
  · rintro ⟨⟨hne, hdigits, hvalue⟩, hlt⟩
    exact ⟨hlt, _, hne, hdigits, hvalue, (spells_iff hdigits).mpr rfl⟩
  · rintro ⟨hlt, digits, hne, hdigits, hvalue, hspells⟩
    rw [(spells_iff hdigits).mp hspells]
    exact ⟨⟨hne, hdigits, hvalue⟩, hlt⟩

/-- A text states the number of bits of a width when it names the width: the value
determines the digits but for zeros before them. -/
theorem names_iff : Names text w ↔ States text w.bits := by
  constructor
  · rintro ⟨zeros, hspells⟩
    have hwritten : ∀ c ∈ w.written, c.isDigit = true := by
      rw [written_eq]
      exact fun c => Nat.isDigit_of_mem_toDigits (by omega) (by omega)
    have hlt : w.bits < 2 ^ 32 := by
      cases w <;> decide
    refine ⟨hlt, _, ?_, ?_, ?_, hspells⟩
    · cases w <;> simp [written]
    · intro c hc
      rcases List.mem_append.mp hc with hzero | hdigit
      · rw [List.eq_of_mem_replicate hzero]
        decide
      · exact hwritten c hdigit
    · rw [Nat.ofDigitChars_append, Nat.ofDigitChars_replicate_zero, Nat.mul_zero, written_eq,
        Nat.ofDigitChars_ten_toDigits]
  · rintro ⟨_, digits, _, hdigits, hvalue, hspells⟩
    have hne : w.bits ≠ 0 := by
      cases w <;> decide
    obtain ⟨zeros, hzeros⟩ := Text.eq_zeros_append hdigits hvalue hne
    refine ⟨zeros, ?_⟩
    rwa [written_eq, ← hzeros]

theorem mem_bits_iff : bits ∈ [8, 16, 32] ↔ ∃ w : Width, bits = w.bits := by
  constructor
  · intro h
    simp only [List.mem_cons, List.not_mem_nil, or_false] at h
    rcases h with rfl | rfl | rfl
    · exact ⟨.w8, rfl⟩
    · exact ⟨.w16, rfl⟩
    · exact ⟨.w32, rfl⟩
  · rintro ⟨w, rfl⟩
    cases w <;> simp [Width.bits, params]

theorem ofBits_cases (bits : Nat) :
    (∃ w : Width, bits = w.bits ∧ ofBits bits = .ok w) ∨
      bits ∉ [8, 16, 32] ∧
        ofBits bits = .misconfigured "FieldWidth" (.unsupportedWidth bits) := by
  by_cases h : bits ∈ [8, 16, 32]
  · obtain ⟨w, rfl⟩ := mem_bits_iff.mp h
    exact Or.inl ⟨w, rfl, ofBits_bits w⟩
  · have hnone : ofBits? bits = none := by
      refine List.find?_eq_none.mpr ?_
      intro w _ hbits
      exact h (mem_bits_iff.mpr ⟨w, (of_decide_eq_true hbits).symm⟩)
    exact Or.inr ⟨h, by rw [ofBits, hnone]⟩

theorem ofBits_eq_ok_iff : ofBits bits = .ok w ↔ bits = w.bits := by
  constructor
  · intro h
    rcases ofBits_cases bits with ⟨v, hbits, hof⟩ | ⟨_, hof⟩
    · cases hof.symm.trans h
      exact hbits
    · cases hof.symm.trans h
  · rintro rfl
    exact ofBits_bits w

theorem ofBits_eq_unsupported_iff {other : Nat} :
    ofBits bits = .misconfigured "FieldWidth" (.unsupportedWidth other) ↔
      bits = other ∧ other ∉ [8, 16, 32] := by
  rcases ofBits_cases bits with ⟨v, rfl, hof⟩ | ⟨hne, hof⟩
  · rw [hof]
    constructor
    · rintro ⟨⟩
    · rintro ⟨rfl, hne⟩
      exact absurd (mem_bits_iff.mpr ⟨v, rfl⟩) hne
  · rw [hof]
    constructor
    · rintro ⟨⟩
      exact ⟨rfl, hne⟩
    · rintro ⟨rfl, _⟩
      rfl

section Read

variable {text : String}

theorem read_eq_ok_iff : read text = .ok w ↔ States text.toList w.bits := by
  rw [← statedBits?_eq_some_iff, read]
  cases statedBits? text.toList with
  | none => simp [Outcome.misconfigured, Outcome.refuse]
  | some bits => rw [ofBits_eq_ok_iff, Option.some.injEq]

theorem read_eq_unsupported_iff :
    read text = .misconfigured "FieldWidth" (.unsupportedWidth bits) ↔
      States text.toList bits ∧ bits ∉ [8, 16, 32] := by
  rw [← statedBits?_eq_some_iff, read]
  cases statedBits? text.toList with
  | none => simp [Outcome.misconfigured, Outcome.refuse]
  | some stated => rw [ofBits_eq_unsupported_iff, Option.some.injEq]

theorem read_eq_unreadable_iff :
    read text = .misconfigured "FieldWidth" (.unreadableWidth text) ↔
      ∀ bits, ¬ States text.toList bits := by
  simp only [← statedBits?_eq_some_iff, read]
  cases statedBits? text.toList with
  | none => simp
  | some bits =>
    constructor
    · intro h
      rcases ofBits_cases bits with ⟨w, _, hof⟩ | ⟨_, hof⟩
      · cases hof.symm.trans h
      · cases hof.symm.trans h
    · intro h
      exact absurd rfl (h bits)

end Read

/-- What a text is read as. It is a width if and only if the text names that width, between
blanks and after its marks. Otherwise, if it states a number of bits below `2^32`, which is
then not that of a width, it is refused for the number; any other text is refused for the
text as it was given. -/
theorem read_ends (text : String) :
    (∀ w, read text = .ok w ↔ Names text.toList w) ∧
    (∀ bits, read text = .misconfigured "FieldWidth" (.unsupportedWidth bits) ↔
      States text.toList bits ∧ bits ∉ [8, 16, 32]) ∧
    (read text = .misconfigured "FieldWidth" (.unreadableWidth text) ↔
      ¬ (∃ w, Names text.toList w) ∧
        ¬ ∃ bits, States text.toList bits ∧ bits ∉ [8, 16, 32]) ∧
    (∀ bits, (Misconfiguration.unsupportedWidth bits).message =
      "unsupported field width " ++ toString bits ++ " (expected 8, 16 or 32)") ∧
    (Misconfiguration.unreadableWidth text).message =
      "cannot parse field width from " ++ Text.quoted text := by
  refine ⟨fun w => read_eq_ok_iff.trans names_iff.symm, fun bits => read_eq_unsupported_iff, ?_,
    fun _ => rfl, rfl⟩
  rw [read_eq_unreadable_iff]
  constructor
  · intro hnone
    constructor
    · rintro ⟨w, hw⟩
      exact hnone w.bits (names_iff.mp hw)
    · rintro ⟨bits, hbits, _⟩
      exact hnone bits hbits
  · rintro ⟨hnames, hstates⟩ bits hbits
    by_cases hwidth : bits ∈ [8, 16, 32]
    · obtain ⟨w, rfl⟩ := mem_bits_iff.mp hwidth
      exact hnames ⟨w, names_iff.mpr hbits⟩
    · exact hstates ⟨bits, hbits, hwidth⟩

example : read " w+008\u00a0" = .ok .w8 := by decide

end Width

end ErasureField
