/-!
# Generated names

A generator hands out `stem_0`, `stem_1`, … for each stem.
-/

namespace WasmEngine

/-- How many names were handed out for each stem used so far. -/
structure NameGenerator where
  counters : List (String × Nat)
  deriving Repr

namespace NameGenerator

/-- A generator that handed out no name yet. -/
def empty : NameGenerator := ⟨[]⟩

/-- How many names a stem has. -/
def count (g : NameGenerator) (stem : String) : Nat := (g.counters.lookup stem).getD 0

/-- The next name of a stem. -/
def unique (g : NameGenerator) (stem : String) : String × NameGenerator :=
  let n := g.count stem
  (stem ++ "_" ++ toString n, ⟨(stem, n + 1) :: g.counters.filter (·.1 != stem)⟩)

/-- The names for a list of stems, one after the other. -/
def uniques (g : NameGenerator) : List String → List String
  | [] => []
  | stem :: stems => (g.unique stem).1 :: (g.unique stem).2.uniques stems

theorem count_unique_self (g : NameGenerator) (stem : String) :
    (g.unique stem).2.count stem = g.count stem + 1 := by
  simp [unique, count]

end NameGenerator

end WasmEngine
