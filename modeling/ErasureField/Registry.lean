import ErasureField.TableSet

/-!
The tables that have been built, each once. Published tables take the next position
in the order of publication and are never withdrawn, so a position names one set of
tables for good. They are found again in two ways: each width has a cell for the
tables of its default polynomial, and those of any other polynomial are listed under
their modulus. Asking again for the same modulus gives the tables already published; a
modulus that is refused leaves the registry as it was.
-/

namespace ErasureField

structure SharedTables where
  position : Nat
  tables : TableSet

structure Registry where
  published : Array TableSet
  defaults : Vector (Option SharedTables) 3
  others : List (Modulus × SharedTables)

namespace Registry

def empty : Registry where
  published := #[]
  defaults := Vector.replicate 3 none
  others := []

def cell (registry : Registry) (w : Width) : Option SharedTables :=
  registry.defaults.get ⟨w.index, w.index_lt⟩

def fillCell (w : Width) (shared : SharedTables) (registry : Registry) : Registry :=
  { registry with defaults := registry.defaults.set w.index (some shared) w.index_lt }

def list (m : Modulus) (shared : SharedTables) (registry : Registry) : Registry :=
  { registry with others := (m, shared) :: registry.others }

def publish (tables : TableSet) : Step Registry SharedTables := do
  let registry ← get
  set ({ registry with published := registry.published.push tables } : Registry)
  return ⟨registry.published.size, tables⟩

/-- The tables of the default polynomial of a width, built and published unless its
cell holds them. -/
def defaultTables (w : Width) : Step Registry SharedTables := do
  let registry ← get
  match registry.cell w with
  | some shared => return shared
  | none =>
    let shared ← publish (← TableSet.build (Modulus.ofWidth w))
    modify (fillCell w shared)
    return shared

/-- The tables of a modulus. A default polynomial that is given by name is looked for in
the cell of its width; any other is built and published unless it is listed. -/
def tablesFor (m : Modulus) : Step Registry SharedTables := do
  if m.polynomial = m.width.defaultPolynomial then defaultTables m.width
  else
    let registry ← get
    match registry.others.lookup m with
    | some shared => return shared
    | none =>
      let shared ← publish (← TableSet.build m)
      modify (list m shared)
      return shared

def prepare (w : Width) : Step Registry Unit := do
  let _ ← defaultTables w
  return ()

/-- Whether the tables of a width with its default polynomial are published. -/
def isPrepared (registry : Registry) (w : Width) : Bool := (registry.cell w).isSome

end Registry

end ErasureField
