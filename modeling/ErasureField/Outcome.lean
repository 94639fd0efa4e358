import ErasureField.Error

/-!
How an operation ends when it gives no value. It may be refused, which is a
value of its own and part of what the operation promises; or its caller broke a
rule that no error describes, such as an index past a table. An operation on a
state gives the state back in every case, so that what a refused operation leaves
behind can be stated.
-/

namespace ErasureField

inductive Fault where
  | indexPastTable
  | sliceTooShort
  | zeroUnit
  deriving DecidableEq

inductive Failure where
  | refused (error : Error)
  | fault (rule : Fault)
  deriving DecidableEq

/-- Renames the operation of a refusal; a fault has no name to replace. -/
def Failure.withOperation (operation : String) : Failure → Failure
  | .refused error => .refused (error.withOperation operation)
  | .fault rule => .fault rule

abbrev Outcome (α : Type) := Except Failure α

namespace Outcome

def refuse {α : Type} (operation : String) (cause : Cause) : Outcome α :=
  .error (.refused ⟨operation, cause⟩)

def misconfigured {α : Type} (operation : String) (why : Misconfiguration) : Outcome α :=
  refuse operation (.configuration why)

def fault {α : Type} (rule : Fault) : Outcome α := .error (.fault rule)

def withOperation {α : Type} (operation : String) (outcome : Outcome α) : Outcome α :=
  outcome.mapError (Failure.withOperation operation)

def entry {α : Type} (table : Array α) (i : Nat) : Outcome α :=
  match table[i]? with
  | some value => .ok value
  | none => fault .indexPastTable

/-- The entries of a table from an index on, as many as are asked for. -/
def window {α : Type} (table : Array α) (start count : Nat) : Outcome (List α) :=
  if start + count ≤ table.size then .ok ((table.toList.drop start).take count)
  else fault .indexPastTable

@[simp]
theorem ok_bind {α β : Type} (a : α) (next : α → Outcome β) :
    (Except.ok a : Outcome α) >>= next = next a := rfl

@[simp]
theorem error_bind {α β : Type} (failure : Failure) (next : α → Outcome β) :
    (Except.error failure : Outcome α) >>= next = .error failure := rfl

@[simp]
theorem pure_eq_ok {α : Type} (a : α) : (pure a : Outcome α) = .ok a := rfl

theorem bind_eq_ok {α β : Type} {outcome : Outcome α} {next : α → Outcome β} {b : β} :
    outcome >>= next = .ok b ↔ ∃ a, outcome = .ok a ∧ next a = .ok b := by
  cases outcome with
  | error failure => simp
  | ok a => simp

theorem mapM_ok {α β : Type} {f : α → Outcome β} {P : α → β → Prop} {items : List α}
    (h : ∀ a ∈ items, ∃ value, f a = .ok value ∧ P a value) :
    ∃ values, items.mapM f = .ok values ∧ values.length = items.length ∧
      ∀ (i : Nat) (a : α) (value : β),
        items[i]? = some a → values[i]? = some value → P a value := by
  induction items with
  | nil =>
    refine ⟨[], rfl, rfl, ?_⟩
    intro i a value ha _
    simp at ha
  | cons a rest ih =>
    obtain ⟨value, hvalue, hholds⟩ := h a (by simp)
    obtain ⟨values, hvalues, hlength, hrest⟩ := ih fun b hb => h b (by simp [hb])
    refine ⟨value :: values, ?_, by simp [hlength], ?_⟩
    · rw [List.mapM_cons, hvalue, ok_bind, hvalues, ok_bind, pure_eq_ok]
    · intro i b w hb hw
      cases i with
      | zero =>
        obtain rfl : a = b := by simpa using hb
        obtain rfl : value = w := by simpa using hw
        exact hholds
      | succ i => exact hrest i b w (by simpa using hb) (by simpa using hw)

theorem mapM_map_ok {α β γ : Type} {f : β → Outcome γ} {g : α → β} {k : α → γ} {items : List α}
    (h : ∀ a ∈ items, f (g a) = .ok (k a)) : (items.map g).mapM f = .ok (items.map k) := by
  induction items with
  | nil => rfl
  | cons a rest ih =>
    have hrest := ih fun b hb => h b (List.mem_cons_of_mem a hb)
    rw [List.map_cons, List.mapM_cons, h a (List.mem_cons_self), ok_bind, hrest, ok_bind,
      pure_eq_ok, List.map_cons]

theorem mapM_range_ok {β : Type} {f : Nat → Outcome β} {P : Nat → β → Prop} {n : Nat}
    (h : ∀ i < n, ∃ value, f i = .ok value ∧ P i value) :
    ∃ values, (List.range n).mapM f = .ok values ∧ values.length = n ∧
      ∀ (i : Nat) (value : β), values[i]? = some value → P i value := by
  obtain ⟨values, hvalues, hlength, hholds⟩ :=
    mapM_ok fun i hi => h i (List.mem_range.mp hi)
  rw [List.length_range] at hlength
  refine ⟨values, hvalues, hlength, ?_⟩
  intro i value hvalue
  have hi : i < n := by
    obtain ⟨hi, _⟩ := List.getElem?_eq_some_iff.mp hvalue
    omega
  exact hholds i i value (by simp [hi]) hvalue

theorem entry_of_getElem? {α : Type} {table : Array α} {i : Nat} {value : α}
    (h : table[i]? = some value) : entry table i = .ok value := by
  rw [entry, h]

end Outcome

abbrev Step (σ α : Type) := ExceptT Failure (StateM σ) α

namespace Step

variable {σ τ α β : Type}

/-- Runs an operation on a state: how it ended, and the state it left. -/
def on (step : Step σ α) (state : σ) : Outcome α × σ := (step.run).run state

def withOperation (operation : String) (step : Step σ α) : Step σ α :=
  ExceptT.adapt (Failure.withOperation operation) step

def zoom (part : σ → τ) (replace : σ → τ → σ) (step : Step τ α) : Step σ α :=
  fun state =>
    let (outcome, inner) := step.on (part state)
    (outcome, replace state inner)

@[simp]
theorem on_pure (a : α) (state : σ) : (pure a : Step σ α).on state = (.ok a, state) := rfl

/-- A sequence stops at the first operation without a value and leaves its state. -/
theorem on_bind (step : Step σ α) (next : α → Step σ β) (state : σ) :
    (step >>= next).on state =
      match step.on state with
      | (.ok a, after) => (next a).on after
      | (.error failure, after) => (.error failure, after) := by
  show (step.run >>= ExceptT.bindCont next).run state = _
  rcases h : step.on state with ⟨outcome, after⟩
  have hrun : step.run.run state = (outcome, after) := h
  cases outcome <;> simp [StateT.run_bind, hrun, ExceptT.bindCont, on] <;> rfl

theorem on_bind_ok {step : Step σ α} {a : α} {state middle : σ}
    (h : step.on state = (.ok a, middle)) (next : α → Step σ β) :
    (step >>= next).on state = (next a).on middle := by
  rw [on_bind, h]

@[simp]
theorem on_map (f : α → β) (step : Step σ α) (state : σ) :
    (f <$> step).on state = ((step.on state).1.map f, (step.on state).2) := by
  rw [map_eq_pure_bind, on_bind]
  rcases step.on state with ⟨_ | _, _⟩ <;> rfl

@[simp]
theorem on_get (state : σ) : (get : Step σ σ).on state = (.ok state, state) := rfl

@[simp]
theorem on_set (after state : σ) : (set after : Step σ PUnit).on state = (.ok (), after) := rfl

@[simp]
theorem on_modify (f : σ → σ) (state : σ) :
    (modify f : Step σ PUnit).on state = (.ok (), f state) := rfl

/-- An operation that reads only its arguments leaves every state as it was. -/
@[simp]
theorem on_lift (outcome : Outcome α) (state : σ) :
    (liftM outcome : Step σ α).on state = (outcome, state) := rfl

/-- A check before an operation: it fails on the state it found, or the operation runs on
that state. -/
theorem on_lift_bind (outcome : Outcome α) (next : α → Step σ β) (state : σ) :
    ((liftM outcome : Step σ α) >>= next).on state =
      match outcome with
      | .ok a => (next a).on state
      | .error failure => (.error failure, state) := by
  rw [on_bind, on_lift]
  cases outcome <;> rfl

theorem on_get_bind (next : σ → Step σ β) (state : σ) :
    ((get : Step σ σ) >>= next).on state = (next state).on state := by
  rw [on_bind, on_get]

@[simp]
theorem on_zoom (part : σ → τ) (replace : σ → τ → σ) (step : Step τ α) (state : σ) :
    (step.zoom part replace).on state =
      ((step.on (part state)).1, replace state (step.on (part state)).2) := rfl

@[simp]
theorem on_withOperation (operation : String) (step : Step σ α) (state : σ) :
    (step.withOperation operation).on state =
      ((step.on state).1.withOperation operation, (step.on state).2) := rfl

end Step

end ErasureField
