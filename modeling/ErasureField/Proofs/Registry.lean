import ErasureField.Proofs.TableSet
import ErasureField.Registry

/-!
What the registry keeps. A cell for each default polynomial and a list for all others
make one finite map from moduli to published tables: a modulus is looked for in one of
the two, and what is published for one modulus is not found for another. Every entry of
a sound registry is what building its modulus gives, at a position that holds it; asking
for an admitted modulus keeps this and loses nothing, and asking for another changes
nothing.
-/

namespace ErasureField.Registry

variable {registry before after : Registry} {m n : Modulus} {shared : SharedTables}
  {tables : TableSet}

/-- The published tables of a modulus, looked for where its polynomial says. -/
def find? (registry : Registry) (m : Modulus) : Option SharedTables :=
  if m.polynomial = m.width.defaultPolynomial then registry.cell m.width
  else registry.others.lookup m

def enter (m : Modulus) (shared : SharedTables) (registry : Registry) : Registry :=
  if m.polynomial = m.width.defaultPolynomial then registry.fillCell m.width shared
  else registry.list m shared

/-- The registry after the tables of a modulus that had none are published. -/
def grow (m : Modulus) (tables : TableSet) (registry : Registry) : Registry :=
  enter m ⟨registry.published.size, tables⟩
    { registry with published := registry.published.push tables }

/-- A modulus with the default polynomial of its width is that of the width. -/
theorem ofWidth_of_default (h : m.polynomial = m.width.defaultPolynomial) :
    Modulus.ofWidth m.width = m := by
  rw [Modulus.ofWidth, ← h]

theorem find?_ofWidth (registry : Registry) (w : Width) :
    registry.find? (Modulus.ofWidth w) = registry.cell w :=
  if_pos rfl

@[simp]
theorem find?_empty (m : Modulus) : empty.find? m = none := by
  have hcell : empty.cell m.width = none := by
    cases m.width <;> rfl
  rw [find?, hcell]
  split <;> rfl

theorem cell_fillCell_self (w : Width) (shared : SharedTables) (registry : Registry) :
    (fillCell w shared registry).cell w = some shared :=
  Vector.getElem_set_self w.index_lt

theorem cell_fillCell_of_ne {v w : Width} (h : v ≠ w) (shared : SharedTables)
    (registry : Registry) : (fillCell w shared registry).cell v = registry.cell v :=
  Vector.getElem_set_ne w.index_lt v.index_lt fun hindex => h (Width.index_inj hindex.symm)

theorem find?_enter_self (m : Modulus) (shared : SharedTables) (registry : Registry) :
    (enter m shared registry).find? m = some shared := by
  unfold find? enter
  split
  · exact cell_fillCell_self _ _ _
  · exact List.lookup_cons_self

/-- The two stores do not overlap: an entry for one modulus is not found for another,
be it in the same store or in the other one. -/
theorem find?_enter_of_ne (h : n ≠ m) (shared : SharedTables) (registry : Registry) :
    (enter m shared registry).find? n = registry.find? n := by
  unfold find? enter
  by_cases hn : n.polynomial = n.width.defaultPolynomial <;>
    by_cases hm : m.polynomial = m.width.defaultPolynomial
  · have hwidth : n.width ≠ m.width := by
      intro hwidth
      apply h
      rw [← ofWidth_of_default hn, ← ofWidth_of_default hm, hwidth]
    simp only [hn, hm, if_true]
    exact cell_fillCell_of_ne hwidth _ _
  · simp only [hn, hm, if_true, if_false]
    rfl
  · simp only [hn, hm, if_true, if_false]
    rfl
  · have hkey : (n == m) = false := beq_false_of_ne h
    simp only [hn, hm, if_false, list, List.lookup_cons, hkey]

theorem find?_grow_self (m : Modulus) (tables : TableSet) (registry : Registry) :
    (grow m tables registry).find? m = some ⟨registry.published.size, tables⟩ :=
  find?_enter_self _ _ _

theorem find?_grow_of_ne (h : n ≠ m) (tables : TableSet) (registry : Registry) :
    (grow m tables registry).find? n = registry.find? n :=
  find?_enter_of_ne h _ _

theorem published_grow (m : Modulus) (tables : TableSet) (registry : Registry) :
    (grow m tables registry).published = registry.published.push tables := by
  unfold grow enter
  split <;> rfl

section Step

theorem defaultTables_eq (w : Width) : defaultTables w = tablesFor (Modulus.ofWidth w) :=
  (if_pos rfl).symm

theorem publish_on (tables : TableSet) (registry : Registry) :
    (publish tables).on registry =
      (.ok ⟨registry.published.size, tables⟩,
        { registry with published := registry.published.push tables }) :=
  rfl

theorem tablesFor_on_found (h : registry.find? m = some shared) :
    (tablesFor m).on registry = (.ok shared, registry) := by
  unfold find? at h
  unfold tablesFor
  split at h
  · next hdefault =>
    rw [if_pos hdefault]
    simp only [defaultTables, Step.on_bind, Step.on_get, h, Step.on_pure]
  · next hdefault =>
    rw [if_neg hdefault]
    simp only [Step.on_bind, Step.on_get, h, Step.on_pure]

theorem tablesFor_on_built (h : registry.find? m = none) (hbuild : TableSet.build m = .ok tables) :
    (tablesFor m).on registry =
      (.ok ⟨registry.published.size, tables⟩, grow m tables registry) := by
  unfold find? at h
  unfold tablesFor grow enter
  split at h
  · next hdefault =>
    rw [if_pos hdefault, if_pos hdefault]
    simp only [defaultTables, Step.on_bind, Step.on_get, h, ofWidth_of_default hdefault,
      Step.on_lift, hbuild, publish_on, Step.on_modify, Step.on_pure]
  · next hdefault =>
    rw [if_neg hdefault, if_neg hdefault]
    simp only [Step.on_bind, Step.on_get, h, Step.on_lift, hbuild, publish_on, Step.on_modify,
      Step.on_pure]

theorem tablesFor_on_refused {failure : Failure} (h : registry.find? m = none)
    (hbuild : TableSet.build m = .error failure) :
    (tablesFor m).on registry = (.error failure, registry) := by
  unfold find? at h
  unfold tablesFor
  split at h
  · next hdefault =>
    rw [if_pos hdefault]
    simp only [defaultTables, Step.on_bind, Step.on_get, h, ofWidth_of_default hdefault,
      Step.on_lift, hbuild]
  · next hdefault =>
    rw [if_neg hdefault]
    simp only [Step.on_bind, Step.on_get, h, Step.on_lift, hbuild]

end Step

structure Sound (registry : Registry) : Prop where
  built : ∀ {m shared}, registry.find? m = some shared → TableSet.build m = .ok shared.tables
  published : ∀ {m shared}, registry.find? m = some shared →
    registry.published[shared.position]? = some shared.tables

structure Extends (before after : Registry) : Prop where
  found : ∀ {m shared}, before.find? m = some shared → after.find? m = some shared
  published : ∀ {i : Nat} {tables : TableSet},
    before.published[i]? = some tables → after.published[i]? = some tables

theorem Extends.refl (registry : Registry) : Extends registry registry :=
  ⟨id, id⟩

theorem Extends.trans {middle : Registry} (first : Extends before middle)
    (second : Extends middle after) : Extends before after :=
  ⟨second.found ∘ first.found, second.published ∘ first.published⟩

theorem sound_empty : empty.Sound := by
  constructor <;> intro m shared h <;> simp at h

theorem extends_grow (h : registry.find? m = none) (tables : TableSet) :
    Extends registry (grow m tables registry) := by
  constructor
  · intro n shared hfound
    have hne : n ≠ m := by
      rintro rfl
      rw [h] at hfound
      cases hfound
    rwa [find?_grow_of_ne hne]
  · intro i tables hposition
    rw [published_grow]
    obtain ⟨hi, _⟩ := Array.getElem?_eq_some_iff.mp hposition
    rwa [Array.getElem?_push, if_neg hi.ne]

theorem Sound.grow (h : registry.Sound) (hnone : registry.find? m = none)
    (hbuild : TableSet.build m = .ok tables) : (grow m tables registry).Sound := by
  have hcases {n : Modulus} {shared : SharedTables}
      (hfound : (Registry.grow m tables registry).find? n = some shared) :
      (n = m ∧ shared = ⟨registry.published.size, tables⟩) ∨ registry.find? n = some shared := by
    by_cases hne : n = m
    · subst hne
      rw [find?_grow_self] at hfound
      exact .inl ⟨rfl, (Option.some.inj hfound).symm⟩
    · rw [find?_grow_of_ne hne] at hfound
      exact .inr hfound
  constructor
  · intro n shared hfound
    rcases hcases hfound with ⟨rfl, rfl⟩ | hold
    · exact hbuild
    · exact h.built hold
  · intro n shared hfound
    rcases hcases hfound with ⟨rfl, rfl⟩ | hold
    · rw [published_grow]
      exact Array.getElem?_push_size
    · exact (extends_grow hnone tables).published (h.published hold)

/-- Entries at one position are entries for one modulus. -/
theorem Sound.modulus_eq (h : registry.Sound) {first second : SharedTables}
    (hm : registry.find? m = some first) (hn : registry.find? n = some second)
    (hposition : first.position = second.position) : m = n := by
  have hfirst := h.published hm
  have hsecond := h.published hn
  rw [hposition, hsecond] at hfirst
  rw [← (TableSet.holds_of_build (h.built hm)).modulus_eq,
    ← (TableSet.holds_of_build (h.built hn)).modulus_eq, Option.some.inj hfirst]

structure Serves (m : Modulus) (shared : SharedTables) (before after : Registry) : Prop where
  sound : after.Sound
  growth : Extends before after
  found : after.find? m = some shared
  unasked : ∀ {n}, n ≠ m → after.find? n = before.find? n

theorem Sound.tablesFor_ok (h : registry.Sound) (hbuild : TableSet.build m = .ok tables) :
    ∃ shared after, (tablesFor m).on registry = (.ok shared, after) ∧
      Serves m shared registry after := by
  cases hfound : registry.find? m with
  | some shared =>
    exact ⟨shared, registry, tablesFor_on_found hfound, h, .refl registry, hfound, fun _ => rfl⟩
  | none =>
    refine ⟨_, _, tablesFor_on_built hfound hbuild, h.grow hfound hbuild,
      extends_grow hfound tables, find?_grow_self _ _ _, ?_⟩
    intro n hne
    exact find?_grow_of_ne hne _ _

theorem Sound.tablesFor_error (h : registry.Sound) {failure : Failure}
    (hbuild : TableSet.build m = .error failure) :
    (tablesFor m).on registry = (.error failure, registry) := by
  apply tablesFor_on_refused _ hbuild
  cases hfound : registry.find? m with
  | none => rfl
  | some shared =>
    have hok := h.built hfound
    rw [hbuild] at hok
    cases hok

end ErasureField.Registry
