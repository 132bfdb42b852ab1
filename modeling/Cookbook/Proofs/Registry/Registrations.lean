import Cookbook.Registry
import Mathlib.Data.Finset.Card
import Mathlib.Data.List.Dedup

/-!
# A registry and its registrations

A registry is the sequence of its registrations, grouped by constraint. No recipe is lost, none is
listed twice, and neither the order of the constraints nor that of the candidates of one of them
depends on what is registered in between.

## Main definitions

* `registeredUnder`: the recipes among some registrations that stand under one name.
* `Registry.Gathers`: what the observers of a registry show of the registrations that it holds.

## Main results

* `candidates_registerAll`, `constraints_registerAll`, `recipes_registerAll`: what registrations do
  to the candidates of a name, to the order of the names and to all recipes.
* `gathers_registerAll`: the registry of some registrations shows exactly these.
-/

namespace Cookbook

variable {registry : Registry} {names : List String} {name : String} {recipe : Recipe}

/-- The recipes registered under a name, in order of registration. -/
def registeredUnder (name : String) (programs : List (String × Recipe)) : List Recipe :=
  (programs.filter fun program => program.1 = name).map Prod.snd

theorem registeredUnder_cons_self (name : String) (recipe : Recipe)
    (programs : List (String × Recipe)) :
    registeredUnder name ((name, recipe) :: programs) =
      recipe :: registeredUnder name programs := by
  rw [registeredUnder, List.filter_cons_of_pos (by simp), List.map_cons, registeredUnder]

theorem registeredUnder_cons_of_ne {other : String} (h : other ≠ name) (recipe : Recipe)
    (programs : List (String × Recipe)) :
    registeredUnder name ((other, recipe) :: programs) = registeredUnder name programs := by
  rw [registeredUnder, List.filter_cons_of_neg (by simpa using h), registeredUnder]

theorem registeredUnder_eq_nil_iff {programs : List (String × Recipe)} :
    registeredUnder name programs = [] ↔ name ∉ programs.map Prod.fst := by
  rw [registeredUnder, List.map_eq_nil_iff, List.filter_eq_nil_iff, List.mem_map]
  constructor
  · rintro h ⟨program, hmem, rfl⟩
    exact h program hmem (decide_eq_true rfl)
  · intro h program hmem hname
    exact h ⟨program, hmem, of_decide_eq_true hname⟩

namespace Registry

/-! ## Candidates -/

/-- Registrations add candidates to their names, in order. -/
theorem candidates_registerAll (programs : List (String × Recipe)) (name : String) :
    (registry.registerAll programs).candidates name =
      registry.candidates name ++ registeredUnder name programs := by
  induction programs generalizing registry with
  | nil => exact (List.append_nil _).symm
  | cons program programs ih =>
    obtain ⟨other, recipe⟩ := program
    show ((registry.register other recipe).registerAll programs).candidates name = _
    rw [ih]
    by_cases h : other = name
    · rw [h, candidates_register_self, registeredUnder_cons_self, List.append_assoc,
        List.singleton_append]
    · rw [candidates_register_of_ne _ (Ne.symm h), registeredUnder_cons_of_ne h]

/-! ## The order of constraints -/

/-- A name that stood there before adds nothing to the distinct names, a new one goes to the end. -/
theorem eraseDups_concat (names : List String) (name : String) :
    (names ++ [name]).eraseDups =
      if name ∈ names then names.eraseDups else names.eraseDups ++ [name] := by
  rw [List.eraseDups_append]
  by_cases h : name ∈ names <;> simp [List.removeAll, List.eraseDups_cons, h]

/-- The names of registrations are appended to those from before, each where it is first used. -/
theorem constraints_registerAll (h : registry.constraints = names.eraseDups)
    (programs : List (String × Recipe)) :
    (registry.registerAll programs).constraints = (names ++ programs.map Prod.fst).eraseDups := by
  induction programs generalizing registry names with
  | nil => rw [List.map_nil, List.append_nil, ← h]; rfl
  | cons program programs ih =>
    have hstep : (registry.register program.1 program.2).constraints =
        (names ++ [program.1]).eraseDups := by
      rw [constraints_register, h, eraseDups_concat]
      simp only [List.mem_eraseDups]
    rw [List.map_cons, List.append_cons]
    exact ih hstep

/-- Distinct names stand in the order of their first occurrences. -/
theorem pairwise_eraseDups (names : List String) :
    names.eraseDups.Pairwise fun a b => names.idxOf a < names.idxOf b := by
  induction names using List.reverseRecOn with
  | nil => exact List.Pairwise.nil
  | append_singleton names name ih =>
    -- Names from before keep their places.
    have hkeep : (names.eraseDups).Pairwise fun a b =>
        (names ++ [name]).idxOf a < (names ++ [name]).idxOf b := by
      refine ih.imp_of_mem fun {a b} ha hb hlt => ?_
      rw [List.idxOf_append_of_mem (List.mem_eraseDups.mp ha),
        List.idxOf_append_of_mem (List.mem_eraseDups.mp hb)]
      exact hlt
    rw [eraseDups_concat]
    split
    · exact hkeep
    · next hnew =>
      refine List.pairwise_append.mpr ⟨hkeep, List.pairwise_singleton _ _, fun a ha b hb => ?_⟩
      obtain rfl := List.mem_singleton.mp hb
      have hmem := List.mem_eraseDups.mp ha
      rw [List.idxOf_append_of_mem hmem, List.idxOf_append_of_notMem hnew]
      exact Nat.lt_of_lt_of_le (List.idxOf_lt_length_iff.mpr hmem) (Nat.le_add_right _ _)

/-! ## Entries -/

/-- A registry lists its candidates under its constraints. -/
theorem entries_eq (registry : Registry) :
    registry.entries.entries =
      registry.constraints.map fun name => (name, registry.candidates name) := by
  have hentry : ∀ entry ∈ registry.entries.entries,
      (entry.1, registry.candidates entry.1) = entry := by
    intro entry hentry
    rw [candidates, OrderedMap.get?, OrderedMap.find?_of_mem registry.entries.nodup hentry]
    rfl
  rw [constraints, OrderedMap.keys, List.map_map]
  exact (List.map_congr_left hentry).trans (List.map_id _) |>.symm

theorem recipes_eq (registry : Registry) :
    registry.recipes = registry.constraints.flatMap registry.candidates := by
  rw [recipes, OrderedMap.values, entries_eq, List.map_map, List.flatMap_def]
  rfl

theorem programCount_eq (registry : Registry) : registry.programCount = registry.recipes.length := by
  have hsum : ∀ (lists : List (List Recipe)) (count : Nat),
      lists.foldl (fun count recipes => count + recipes.length) count =
        count + lists.flatten.length := by
    intro lists
    induction lists with
    | nil => exact fun _ => rfl
    | cons recipes lists ih =>
      intro count
      rw [List.foldl_cons, ih, List.flatten_cons, List.length_append, Nat.add_assoc]
  exact (hsum _ 0).trans (Nat.zero_add _)

/-! ## All recipes -/

/-- A further value under a name is one more value of the map. -/
theorem flatten_write {α : Type} (key : String) (value : α) (entries : List (String × List α)) :
    ((OrderedMap.write key ((OrderedMap.find? key entries).getD [] ++ [value]) entries).map
      Prod.snd).flatten.Perm ((entries.map Prod.snd).flatten ++ [value]) := by
  induction entries with
  | nil => exact .refl _
  | cons entry entries ih =>
    obtain ⟨other, values⟩ := entry
    by_cases h : other = key
    · simp only [OrderedMap.write, OrderedMap.find?, h, if_true, Option.getD_some, List.map_cons,
        List.flatten_cons, List.append_assoc]
      exact .append_left _ List.perm_append_comm
    · simp only [OrderedMap.write, OrderedMap.find?, h, if_false, List.map_cons,
        List.flatten_cons, List.append_assoc]
      exact .append_left _ ih

/-- A registration adds its recipe to the registered ones. -/
theorem recipes_register (registry : Registry) (name : String) (recipe : Recipe) :
    (registry.register name recipe).recipes.Perm (registry.recipes ++ [recipe]) :=
  flatten_write name recipe registry.entries.entries

/-- Registrations add their recipes to the registered ones. -/
theorem recipes_registerAll (registry : Registry) (programs : List (String × Recipe)) :
    (registry.registerAll programs).recipes.Perm (registry.recipes ++ programs.map Prod.snd) := by
  induction programs generalizing registry with
  | nil => rw [List.map_nil, List.append_nil]; exact .refl _
  | cons program programs ih =>
    rw [List.map_cons, List.append_cons]
    exact (ih _).trans ((recipes_register registry program.1 program.2).append_right _)

/-! ## The registry of some registrations -/

/-- What the observers of a registry show that holds exactly some registrations. -/
structure Gathers (registry : Registry) (programs : List (String × Recipe)) : Prop where
  /-- The candidates of a name are the recipes registered under it, in order. -/
  candidates_eq : ∀ name, registry.candidates name = registeredUnder name programs
  /-- The constraints are the names that were used, -/
  mem_constraints : ∀ name, name ∈ registry.constraints ↔ name ∈ programs.map Prod.fst
  /-- each of them once and in the order of their first registrations. -/
  order : registry.constraints.Pairwise fun a b =>
    (programs.map Prod.fst).idxOf a < (programs.map Prod.fst).idxOf b
  /-- The size counts distinct names, -/
  size_eq : registry.size = (programs.map Prod.fst).toFinset.card
  /-- and the program count all registrations. -/
  programCount_eq : registry.programCount = programs.length
  isEmpty_iff : registry.isEmpty = true ↔ programs = []
  /-- The entries are the constraints with their candidates, of which there is at least one. -/
  entries_eq : registry.entries.entries =
    registry.constraints.map fun name => (name, registry.candidates name)
  ne_nil : ∀ entry ∈ registry.entries.entries, entry.2 ≠ []
  /-- All recipes are the candidates, name by name, and these are the recipes registered. -/
  recipes_eq : registry.recipes = registry.constraints.flatMap registry.candidates
  perm : registry.recipes.Perm (programs.map Prod.snd)

/-- The registry of some registrations shows exactly these. -/
theorem gathers_registerAll (programs : List (String × Recipe)) :
    (Registry.empty.registerAll programs).Gathers programs := by
  -- What each observer shows of a registry that was filled from nothing.
  have hcandidates : ∀ name, (empty.registerAll programs).candidates name =
      registeredUnder name programs := candidates_registerAll programs
  have hconstraints : (empty.registerAll programs).constraints =
      (programs.map Prod.fst).eraseDups := @constraints_registerAll empty [] rfl programs
  have hmem : ∀ name, name ∈ (empty.registerAll programs).constraints ↔
      name ∈ programs.map Prod.fst := fun name => by rw [hconstraints, List.mem_eraseDups]
  have hperm : (empty.registerAll programs).recipes.Perm (programs.map Prod.snd) :=
    recipes_registerAll empty programs
  have hsize : (empty.registerAll programs).size = (programs.map Prod.fst).toFinset.card := by
    have hnodup : (empty.registerAll programs).constraints.Nodup :=
      (empty.registerAll programs).entries.nodup
    -- No constraint is listed twice, so that their number is that of different names.
    have hsame : (empty.registerAll programs).constraints.toFinset =
        (programs.map Prod.fst).toFinset := by
      ext name
      rw [List.mem_toFinset, List.mem_toFinset, hmem]
    rw [← hsame, List.toFinset_card_of_nodup hnodup]
    exact (List.length_map _).symm
  refine
    { candidates_eq := hcandidates
      mem_constraints := hmem
      order := hconstraints ▸ pairwise_eraseDups _
      size_eq := hsize
      programCount_eq := by rw [programCount_eq, hperm.length_eq, List.length_map]
      isEmpty_iff := ?_
      entries_eq := entries_eq _
      ne_nil := ?_
      recipes_eq := recipes_eq _
      perm := hperm }
  · rw [isEmpty, OrderedMap.isEmpty, List.isEmpty_iff_length_eq_zero]
    show (empty.registerAll programs).size = 0 ↔ _
    rw [hsize, Finset.card_eq_zero, List.toFinset_eq_empty_iff, List.map_eq_nil_iff]
  -- An entry is made by a registration, which is then one of its candidates.
  · intro entry hentry
    rw [entries_eq] at hentry
    obtain ⟨name, hname, rfl⟩ := List.mem_map.mp hentry
    rw [hcandidates, ne_eq, registeredUnder_eq_nil_iff, not_not]
    exact (hmem name).mp hname

end Registry

end Cookbook
