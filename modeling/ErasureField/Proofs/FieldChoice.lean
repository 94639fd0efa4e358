import ErasureField.FieldChoice.Document
import ErasureField.Proofs.CallHistory
import ErasureField.Proofs.WidthReading

/-!
Choices of a field, written and asked for. The document of a choice is read as the choice;
of the members of an object the last width and the last polynomial count and no other, since
an object is a value that was read before, as a map. Nothing is said of a reader that fills a
choice straight from text, which refuses a width or a polynomial that stands twice; where no
key stands twice, the two read the same. A choice without a polynomial has the field of the
choice that names the default polynomial, although the one is looked for under its width and
the other under its modulus.
-/

namespace ErasureField

namespace Json

variable {key other : String}

/-- A member does not change what another key has. -/
theorem member?_insert (h : other ≠ key) (value : Json) (before after : List (String × Json)) :
    member? (before ++ (other, value) :: after) key = member? (before ++ after) key := by
  have hother : (key == other) = false := beq_false_of_ne h.symm
  simp only [member?, List.reverse_append, List.reverse_cons, List.lookup_append,
    List.lookup_cons, List.lookup_nil, hother, Option.or_none]

end Json

namespace FieldChoice

variable {limit n : Nat} {value : Json} {w : Width} {polynomial : Option UInt64}
  {members : List (String × Json)} {choice : FieldChoice}

def polynomialJson : Option UInt64 → Json
  | some p => .ofNat p.toNat
  | none => .null

theorem toJson_eq (choice : FieldChoice) :
    choice.toJson =
      .object [("width", .ofNat choice.width.bits),
        ("polynomial", polynomialJson choice.polynomial)] := by
  obtain ⟨w, _ | p⟩ := choice <;> rfl

theorem naturalBelow?_eq_some_iff :
    naturalBelow? limit value = some n ↔ n < limit ∧ value = .ofNat n := by
  cases value with
  | integer i =>
    rw [naturalBelow?, Option.ite_none_right_eq_some, Option.some.injEq, Json.ofNat,
      Json.integer.injEq]
    omega
  | null | bool _ | decimal _ | string _ | array _ | object _ => simp [naturalBelow?, Json.ofNat]

theorem naturalBelow?_ofNat (h : n < limit) : naturalBelow? limit (.ofNat n) = some n :=
  naturalBelow?_eq_some_iff.mpr ⟨h, rfl⟩

/-- The widths are the numbers of bits that are read as one. -/
theorem widthOf_eq_ok_iff : widthOf value = .ok w ↔ value = .ofNat w.bits := by
  constructor
  · intro h
    unfold widthOf at h
    split at h
    · next bits hbits =>
      cases hwidth : Width.ofBits bits with
      | error why =>
        rw [hwidth] at h
        cases h
      | ok v =>
        rw [hwidth] at h
        cases h
        rw [← Width.ofBits_eq_ok_iff.mp hwidth]
        exact (naturalBelow?_eq_some_iff.mp hbits).2
    · cases h
  · rintro rfl
    have hlimit : w.bits < Width.readingLimit := by
      cases w <;> decide
    rw [widthOf, naturalBelow?_ofNat hlimit]
    simp only [Width.ofBits_bits]
    rfl

theorem polynomialOf_natural (h : naturalBelow? polynomialLimit value = some n) :
    polynomialOf value = .ok (some (UInt64.ofNat n)) := by
  cases value with
  | integer i => simp only [polynomialOf, h]
  | null | bool _ | decimal _ | string _ | array _ | object _ => cases h

theorem polynomialOf_eq_ok_iff :
    polynomialOf value = .ok polynomial ↔ value = polynomialJson polynomial := by
  constructor
  · intro h
    unfold polynomialOf at h
    split at h
    · cases h
      rfl
    · split at h
      · next p hp =>
        cases h
        obtain ⟨hlt, rfl⟩ := naturalBelow?_eq_some_iff.mp hp
        rw [polynomialJson, UInt64.toNat_ofNat_of_lt' hlt]
      · cases h
  · rintro rfl
    cases polynomial with
    | none => rfl
    | some p =>
      rw [polynomialJson, polynomialOf_natural (naturalBelow?_ofNat p.toNat_lt),
        UInt64.ofNat_toNat]

/-- What the members of an object must say to state a choice. -/
theorem ofMembers_eq_ok_iff :
    ofMembers members = .ok choice ↔
      Json.member? members "width" = some (.ofNat choice.width.bits) ∧
        (Json.member? members "polynomial").getD .null = polynomialJson choice.polynomial := by
  obtain ⟨w, polynomial⟩ := choice
  show ofMembers members = .ok ⟨w, polynomial⟩ ↔
    _ = some (Json.ofNat w.bits) ∧ _ = polynomialJson polynomial
  rw [← polynomialOf_eq_ok_iff, ofMembers]
  cases polynomialOf ((Json.member? members "polynomial").getD .null) with
  | error why =>
    show Except.error why = .ok _ ↔ _
    simp
  | ok p =>
    cases Json.member? members "width" with
    | none =>
      show Except.error DocumentError.malformed = .ok _ ↔ _
      simp
    | some value =>
      rw [Option.some.injEq, ← widthOf_eq_ok_iff]
      show (widthOf value).map (⟨·, p⟩) = .ok (⟨w, polynomial⟩ : FieldChoice) ↔ _
      cases widthOf value <;> simp [Except.map]

theorem ofJson_toJson (choice : FieldChoice) : ofJson choice.toJson = .ok choice := by
  rw [toJson_eq]
  exact ofMembers_eq_ok_iff.mpr ⟨rfl, rfl⟩

/-- The values that a polynomial may have, left out or not. -/
theorem exists_polynomialJson_iff {found : Option Json} :
    (∃ polynomial, found.getD .null = polynomialJson polynomial) ↔
      found = none ∨ found = some .null ∨ ∃ p < 2 ^ 64, found = some (.ofNat p) := by
  constructor
  · rintro ⟨polynomial, h⟩
    cases found with
    | none => exact Or.inl rfl
    | some value =>
      obtain rfl : value = polynomialJson polynomial := h
      cases polynomial with
      | none => exact Or.inr (Or.inl rfl)
      | some p => exact Or.inr (Or.inr ⟨p.toNat, p.toNat_lt, rfl⟩)
  · rintro (rfl | rfl | ⟨p, hp, rfl⟩)
    · exact ⟨none, rfl⟩
    · exact ⟨none, rfl⟩
    · refine ⟨some (UInt64.ofNat p), ?_⟩
      rw [polynomialJson, UInt64.toNat_ofNat_of_lt' hp, Option.getD_some]

/-- Which objects state a choice. -/
theorem ofJson_object_succeeds_iff (members : List (String × Json)) :
    (∃ choice, ofJson (.object members) = .ok choice) ↔
      (∃ bits ∈ [8, 16, 32], Json.member? members "width" = some (.ofNat bits)) ∧
        (Json.member? members "polynomial" = none ∨
          Json.member? members "polynomial" = some .null ∨
          ∃ p < 2 ^ 64, Json.member? members "polynomial" = some (.ofNat p)) := by
  simp only [Width.mem_bits_iff, ← exists_polynomialJson_iff]
  constructor
  · rintro ⟨choice, h⟩
    obtain ⟨hwidth, hpolynomial⟩ := ofMembers_eq_ok_iff.mp h
    exact ⟨⟨_, ⟨choice.width, rfl⟩, hwidth⟩, choice.polynomial, hpolynomial⟩
  · rintro ⟨⟨_, ⟨w, rfl⟩, hwidth⟩, polynomial, hpolynomial⟩
    exact ⟨⟨w, polynomial⟩, ofMembers_eq_ok_iff.mpr ⟨hwidth, hpolynomial⟩⟩

/-- Members with other keys do not count. -/
theorem ofJson_object_insert {key : String} (hwidth : key ≠ "width")
    (hpolynomial : key ≠ "polynomial") (value : Json) (before after : List (String × Json)) :
    ofJson (.object (before ++ (key, value) :: after)) = ofJson (.object (before ++ after)) := by
  show ofMembers _ = ofMembers _
  rw [ofMembers, Json.member?_insert hwidth, Json.member?_insert hpolynomial, ofMembers]

end FieldChoice

namespace Call

variable {calls : List Call} {i j : Nat} {call : Call} {choice : FieldChoice}
  {outcome other : Outcome Reply}

/-- A call of a modulus that is refused is refused. -/
theorem Ends.eq_error {cause : Failure} (h : Ends calls i call outcome)
    (hbuild : TableSet.build call.modulus = .error cause) :
    outcome = .error (call.failure cause) := by
  cases outcome with
  | error why =>
    obtain ⟨reason, hrefused, rfl⟩ := h.refused
    cases hbuild.symm.trans hrefused
    rfl
  | ok r =>
    obtain ⟨shared, _, hserved, _⟩ := h.served
    cases hbuild.symm.trans hserved

/-- A call of an admitted modulus replies with its tables. -/
theorem Ends.exists_reply {tables : TableSet} (h : Ends calls i call outcome)
    (hbuild : TableSet.build call.modulus = .ok tables) :
    ∃ shared, outcome = .ok (call.reply shared) ∧
      (history calls).find? call.modulus = some shared := by
  cases outcome with
  | error why =>
    obtain ⟨cause, hrefused, _⟩ := h.refused
    cases hbuild.symm.trans hrefused
  | ok r =>
    obtain ⟨shared, rfl, _, hfound⟩ := h.served
    exact ⟨shared, rfl, hfound⟩

/-- A choice whose modulus has no tables names its polynomial, and is refused for it. -/
theorem refused_of_build {cause : Failure} (h : TableSet.build choice.modulus = .error cause) :
    choice.withPolynomial choice.polynomialOrDefault = choice ∧
      ∃ why, .error ((Call.ofChoice choice).failure cause) =
        (Outcome.misconfigured "GaloisField::with_polynomial" why : Outcome Reply) := by
  have hnot : ¬ choice.modulus.Admissible := by
    intro hadmissible
    obtain ⟨tables, hbuild, _⟩ := TableSet.build_of_admissible hadmissible
    cases hbuild.symm.trans h
  obtain ⟨operation, why, hrefused⟩ := TableSet.build_misconfigured hnot
  cases h.symm.trans hrefused
  obtain ⟨w, _ | p⟩ := choice
  · exact absurd (Modulus.admissible_ofWidth w) hnot
  · exact ⟨rfl, why, rfl⟩

/-- Asking for the field of a choice and for that of the choice with its polynomial named end
alike, at whatever points of a history: no default is refused, and a modulus has one entry,
whichever way it is asked for. -/
theorem Ends.named (h : Ends calls i (.ofChoice choice) outcome)
    (hnamed : Ends calls j (.ofChoice (choice.withPolynomial choice.polynomialOrDefault)) other) :
    (∃ why, outcome = .misconfigured "GaloisField::with_polynomial" why ∧ other = outcome) ∨
    ∃ f, outcome = .ok (.field f) ∧ other = .ok (.field f) ∧ f.width = choice.width ∧
      f.polynomial = choice.polynomialOrDefault := by
  cases hbuild : TableSet.build choice.modulus with
  | error cause =>
    obtain ⟨hsame, why, hrefused⟩ := refused_of_build hbuild
    rw [hsame] at hnamed
    obtain rfl := h.eq_error hbuild
    exact Or.inl ⟨why, hrefused, hnamed.eq_error hbuild⟩
  | ok tables =>
    obtain ⟨shared, rfl, hfound⟩ := h.exists_reply hbuild
    obtain ⟨shared', rfl, hfound'⟩ := hnamed.exists_reply hbuild
    obtain rfl : shared = shared' := Option.some.inj (hfound.symm.trans hfound')
    have hholds := TableSet.holds_of_build ((sound_history calls).built hfound)
    exact Or.inr ⟨⟨shared⟩, rfl, rfl, hholds.width_eq, hholds.polynomial⟩

end Call

namespace FieldChoice

/-- The document of a choice is read as the choice, and so is an object with its width and its
polynomial, which may be left out where there is none. Where a key stands twice in the object
its last value is meant, as in a value read into a map. An object states some choice if and only
if its width is one of the three and its polynomial is left out, `null` or below `2^64`, and a
member with another key changes nothing, whatever it is and wherever it stands. In any
sequence of calls from the empty registry, asking for the field of a choice and for that of the
choice with its polynomial named are both refused, for one reason, or both give one field,
which has the width and the polynomial of the choice. -/
theorem document_and_field (choice : FieldChoice) :
    ofJson choice.toJson = .ok choice ∧
    (∀ members : List (String × Json), ofJson (.object members) = .ok choice ↔
      Json.member? members "width" = some (.ofNat choice.width.bits) ∧
        (Json.member? members "polynomial").getD .null = polynomialJson choice.polynomial) ∧
    (∀ members : List (String × Json),
      (∃ stated, ofJson (.object members) = .ok stated) ↔
        (∃ bits ∈ [8, 16, 32], Json.member? members "width" = some (.ofNat bits)) ∧
          (Json.member? members "polynomial" = none ∨
            Json.member? members "polynomial" = some .null ∨
            ∃ p < 2 ^ 64, Json.member? members "polynomial" = some (.ofNat p))) ∧
    (∀ before after key value, key ≠ "width" → key ≠ "polynomial" →
      ofJson (.object (before ++ (key, value) :: after)) = ofJson (.object (before ++ after))) ∧
    (∀ calls i j outcome other, Call.Ends calls i (.ofChoice choice) outcome →
      Call.Ends calls j (.ofChoice (choice.withPolynomial choice.polynomialOrDefault)) other →
      (∃ why, outcome = .misconfigured "GaloisField::with_polynomial" why ∧ other = outcome) ∨
      ∃ f, outcome = .ok (.field f) ∧ other = .ok (.field f) ∧ f.width = choice.width ∧
        f.polynomial = choice.polynomialOrDefault) := by
  refine ⟨ofJson_toJson choice, fun members => ofMembers_eq_ok_iff, ofJson_object_succeeds_iff,
    ?_, ?_⟩
  · intro before after key value hwidth hpolynomial
    exact ofJson_object_insert hwidth hpolynomial value before after
  · intro calls i j outcome other hends hnamed
    exact hends.named hnamed

/-- A choice of width 8 without a polynomial, in a document with one more member, and asked
for before and after its polynomial is named. -/
theorem document_and_field_w8 :
    ofJson (.object [("width", .integer 8), ("note", .bool true), ("polynomial", .null)]) =
      .ok (ofWidth .w8) ∧
    ∃ f, Call.Ends [.ofChoice (ofWidth .w8), .ofChoice ⟨.w8, some 0x11D⟩] 0
        (.ofChoice (ofWidth .w8)) (.ok (.field f)) ∧
      Call.Ends [.ofChoice (ofWidth .w8), .ofChoice ⟨.w8, some 0x11D⟩] 1
        (.ofChoice ⟨.w8, some 0x11D⟩) (.ok (.field f)) ∧
      f.width = .w8 ∧ f.polynomial = 0x11D := by
  obtain ⟨hdocument, _, _, hinsert, hfield⟩ := document_and_field (ofWidth .w8)
  refine ⟨?_, ?_⟩
  · exact (hinsert [("width", .integer 8)] [("polynomial", .null)] "note" (.bool true)
      (by decide) (by decide)).trans hdocument
  · have hfirst : Call.Ends [.ofChoice (ofWidth .w8), .ofChoice ⟨.w8, some 0x11D⟩] 0
        (.ofChoice (ofWidth .w8)) _ := ⟨rfl, rfl⟩
    obtain ⟨tables, hbuild, _⟩ := TableSet.build_of_admissible (Modulus.admissible_ofWidth .w8)
    obtain ⟨shared, hreply, _⟩ := hfirst.exists_reply hbuild
    rcases hfield _ 0 1 _ _ hfirst ⟨rfl, rfl⟩ with
      ⟨why, hrefused, _⟩ | ⟨f, hends, hnamed, hwidth, hpolynomial⟩
    · cases hreply.symm.trans hrefused
    · exact ⟨f, ⟨rfl, hends⟩, ⟨rfl, hnamed⟩, hwidth, hpolynomial⟩

end FieldChoice

end ErasureField
