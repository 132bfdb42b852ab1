import Cookbook.OrderedMap
import Cookbook.Recipe

/-!
# The registry

The registry lists, for each constraint, the recipes that meet it: the candidates, in the order in
which they were registered. Constraints stand in the order of their first candidates.

## Main results

* `candidates_register_self`, `candidates_register_of_ne`: what a registration does to candidates.
* `constraints_register`: what it does to the order of constraints.
-/

namespace Cookbook

/-- The candidates of each constraint. -/
structure Registry where
  entries : OrderedMap (List Recipe)

namespace Registry

/-- The registry without candidates. -/
def empty : Registry := ⟨.empty⟩

instance : Inhabited Registry := ⟨empty⟩

/-- The candidates of a constraint, in order of registration. -/
def candidates (registry : Registry) (constraint : String) : List Recipe :=
  (registry.entries.get? constraint).getD []

/-- Adds a candidate to a constraint. -/
def register (registry : Registry) (constraint : String) (recipe : Recipe) : Registry :=
  ⟨registry.entries.insert constraint (registry.candidates constraint ++ [recipe])⟩

/-- Registers recipes under the given names, one after the other. -/
def registerAll (registry : Registry) (programs : List (String × Recipe)) : Registry :=
  programs.foldl (fun registry program => registry.register program.1 program.2) registry

/-- Registers recipes under the constraints that they name. -/
def registerRecipes (registry : Registry) (recipes : List Recipe) : Registry :=
  registry.registerAll (recipes.map fun recipe => (recipe.constraint, recipe))

/-- The constraints that have candidates, in the order of their first ones. -/
def constraints (registry : Registry) : List String := registry.entries.keys

/-- The number of constraints. -/
def size (registry : Registry) : Nat := registry.entries.size

/-- Whether no recipe is registered. -/
def isEmpty (registry : Registry) : Bool := registry.entries.isEmpty

/-- Every recipe, constraint by constraint. -/
def recipes (registry : Registry) : List Recipe := registry.entries.values.flatten

/-- The number of recipes. -/
def programCount (registry : Registry) : Nat :=
  registry.entries.values.foldl (fun count recipes => count + recipes.length) 0

/-! ## Laws -/

/-- A registration adds the recipe after the candidates of its constraint. -/
@[simp] theorem candidates_register_self (registry : Registry) (constraint : String)
    (recipe : Recipe) :
    (registry.register constraint recipe).candidates constraint =
      registry.candidates constraint ++ [recipe] := by
  simp [register, candidates]

/-- A registration leaves the candidates of other constraints as they were. -/
theorem candidates_register_of_ne (registry : Registry) {constraint other : String}
    (h : other ≠ constraint) (recipe : Recipe) :
    (registry.register constraint recipe).candidates other = registry.candidates other := by
  simp [register, candidates, OrderedMap.get?_insert_of_ne _ h]

/-- A known constraint keeps its place, a new one goes to the end. -/
theorem constraints_register (registry : Registry) (constraint : String) (recipe : Recipe) :
    (registry.register constraint recipe).constraints =
      if constraint ∈ registry.constraints then registry.constraints
      else registry.constraints ++ [constraint] :=
  OrderedMap.keys_insert _ _ _

end Registry

end Cookbook
