import Cookbook.Recipe
import Mathlib.Data.List.Basic

/-!
# Places in expressions

Equal sub-expressions of an expression are told apart by their places: the numbers of the children
that lead to them. The rules of a recipe form a forest, in which a place starts with the number of a
rule. A walk comes through every place once, and through all that is below a place before it.

## Main definitions

* `Expression.at?`, `Recipe.at?`: what stands at a place.
* `Expression.places`, `Recipe.places`: the places of a walk, in its order.
* `VisitsOnce`: what it means that each place is visited once, behind everything below it.

## Main results

* `Expression.walk_eq`, `Expression.places_eq`: a walk goes through the children in order and ends
  with their parent.
* `Expression.map_at?_places`, `Recipe.map_at?_places`: a walk visits what stands at its places.
* `Expression.visitsOnce_places`, `Recipe.visitsOnce_places`: it visits everything once.
-/

namespace Cookbook

open scoped List

/-- The numbers of the children that lead to a sub-expression. -/
abbrev Place := List Nat

/-- The places of expressions, the first of which has the number `n`, in a forest of them. -/
def below (n : Nat) : List (List Place) → List Place
  | [] => []
  | places :: others => places.map (n :: ·) ++ below (n + 1) others

namespace Expression

/-- What holds of an expression whenever it holds of its children holds of every expression. -/
theorem children_induction {motive : Expression → Prop}
    (h : ∀ e, (∀ child ∈ e.children, motive child) → motive e) (e : Expression) : motive e := by
  induction e with
  | field base path => exact h _ (List.forall_mem_nil _)
  | literal value => exact h _ (List.forall_mem_nil _)
  | get key tag => exact h _ (List.forall_mem_nil _)
  | format template arguments ih => exact h _ (List.forall_mem_map.mpr ih)
  | capture key value tag ih => exact h _ (List.forall_mem_singleton.mpr ih)
  | conditional condition thenBranch otherwise ihc iht iho =>
    exact h _ (by simpa [children] using ⟨ihc, iht, iho⟩)

/-- What stands at a place. -/
def at? : Expression → Place → Option Expression
  | e, [] => some e
  | e, n :: place => e.children[n]?.bind fun child => child.at? place

mutual

/-- The places of the sub-expressions, in the order of a walk. -/
def places : Expression → List Place
  | field _ _ | literal _ | get _ _ => [[]]
  | format _ arguments => argumentPlaces 0 arguments ++ [[]]
  | capture _ value _ => value.places.map (0 :: ·) ++ [[]]
  | conditional condition thenBranch otherwise =>
    condition.places.map (0 :: ·) ++ thenBranch.places.map (1 :: ·) ++
      otherwise.places.map (2 :: ·) ++ [[]]

/-- The places in arguments, the first of which has the number `n`. -/
def argumentPlaces (n : Nat) : List (Argument Expression) → List Place
  | [] => []
  | ⟨_, value⟩ :: arguments => value.places.map (n :: ·) ++ argumentPlaces (n + 1) arguments

end

/-! ## Children in order -/

theorem walkArguments_eq (arguments : List (Argument Expression)) :
    walkArguments arguments = (arguments.map (·.value)).flatMap walk := by
  induction arguments with
  | nil => rfl
  | cons a arguments ih => rw [walkArguments, ih]; rfl

theorem argumentPlaces_eq (n : Nat) (arguments : List (Argument Expression)) :
    argumentPlaces n arguments = below n ((arguments.map (·.value)).map places) := by
  induction arguments generalizing n with
  | nil => rfl
  | cons a arguments ih => rw [argumentPlaces, ih]; rfl

/-- A walk goes through the children in order and ends with their parent. -/
theorem walk_eq (e : Expression) : e.walk = e.children.flatMap walk ++ [e] := by
  cases e with
  | format template arguments => rw [walk, walkArguments_eq]; rfl
  | field | literal | get | capture | conditional => simp [walk, children]

theorem places_eq (e : Expression) : e.places = below 0 (e.children.map places) ++ [[]] := by
  cases e with
  | format template arguments => rw [places, argumentPlaces_eq]; rfl
  | field | literal | get | capture | conditional => simp [places, children, below]

end Expression

/-! ## Forests -/

/-- What stands at a place in a forest. -/
def forestAt? (forest : List Expression) : Place → Option Expression
  | [] => none
  | n :: place => forest[n]?.bind fun e => e.at? place

/-- The places in a forest, in the order of a walk. -/
def forestPlaces (forest : List Expression) : List Place :=
  below 0 (forest.map Expression.places)

variable {trees : List Expression} {place : Place} {e : Expression} {n : Nat}
  {look : Place → Option Expression} {family : List (List Place)}

theorem Expression.places_eq_forest (e : Expression) :
    e.places = forestPlaces e.children ++ [[]] :=
  e.places_eq

theorem mem_below : place ∈ below n family ↔
    ∃ i places rest, family[i]? = some places ∧ rest ∈ places ∧ place = (n + i) :: rest := by
  induction family generalizing n with
  | nil => simp [below]
  | cons first family ih =>
    rw [below, List.mem_append, List.mem_map, ih]
    constructor
    · rintro (⟨rest, hrest, rfl⟩ | ⟨i, places, rest, hi, hrest, rfl⟩)
      · exact ⟨0, first, rest, rfl, hrest, rfl⟩
      · exact ⟨i + 1, places, rest, hi, hrest, by rw [Nat.add_right_comm, Nat.add_assoc]⟩
    · rintro ⟨i, places, rest, hi, hrest, rfl⟩
      cases i with
      | zero =>
        obtain rfl : first = places := Option.some.inj hi
        exact .inl ⟨rest, hrest, rfl⟩
      | succ i => exact .inr ⟨i, places, rest, hi, hrest, by rw [Nat.add_right_comm, Nat.add_assoc]⟩

theorem nil_notMem_below : [] ∉ below n family := by
  intro h
  obtain ⟨i, places, rest, -, -, hnil⟩ := mem_below.mp h
  cases hnil

/-- What stands at a place is looked up in trees, the first of which has the number `n`. -/
def LooksInto (look : Place → Option Expression) (n : Nat) (trees : List Expression) : Prop :=
  ∀ i e, trees[i]? = some e → ∀ place, look ((n + i) :: place) = e.at? place

theorem looksInto_forestAt? (trees : List Expression) : LooksInto (forestAt? trees) 0 trees := by
  intro i e he place
  rw [Nat.zero_add, forestAt?, he, Option.bind_some]

theorem Expression.looksInto_at? (e : Expression) : LooksInto e.at? 0 e.children :=
  looksInto_forestAt? e.children

theorem LooksInto.head (h : LooksInto look n (e :: trees)) (place : Place) :
    look (n :: place) = e.at? place :=
  h 0 e rfl place

theorem LooksInto.tail (h : LooksInto look n (e :: trees)) : LooksInto look (n + 1) trees := by
  intro i other hother place
  rw [Nat.add_right_comm, Nat.add_assoc]
  exact h (i + 1) other hother place

/-- A walk through trees visits what stands at its places, if that is so for each of them. -/
theorem map_look_below (hlook : LooksInto look n trees)
    (h : ∀ e ∈ trees, e.places.map e.at? = e.walk.map some) :
    (below n (trees.map Expression.places)).map look =
      (trees.flatMap Expression.walk).map some := by
  induction trees generalizing n with
  | nil => rfl
  | cons e trees ih =>
    rw [List.forall_mem_cons] at h
    have hfirst : (e.places.map (n :: ·)).map look = e.walk.map some := by
      rw [← h.1, List.map_map]
      exact List.map_congr_left fun place _ => hlook.head place
    rw [List.map_cons, below, List.map_append, hfirst, ih hlook.tail h.2, List.flatMap_cons,
      List.map_append]

/-! ## Visits -/

/-- Each place where something stands is visited once, and everything below it is visited before. -/
structure VisitsOnce (look : Place → Option Expression) (places : List Place) : Prop where
  nodup : places.Nodup
  mem_iff : ∀ place, place ∈ places ↔ (look place).isSome
  inside_first : ∀ inner ∈ places, ∀ outer ∈ places, outer <+: inner → outer ≠ inner →
    [inner, outer] <+ places

/-- No place is visited before one inside it, or twice. -/
def Inward (places : List Place) : Prop :=
  places.Pairwise fun first second => ¬first <+: second

theorem Inward.nodup {places : List Place} (h : Inward places) : places.Nodup :=
  List.Pairwise.imp (fun {first second} hahead (heq : first = second) =>
    hahead (heq ▸ List.prefix_rfl)) h

theorem Inward.inside_first {places : List Place} {inner outer : Place} (h : Inward places)
    (hinner : inner ∈ places) (houter : outer ∈ places) (hahead : outer <+: inner)
    (hne : outer ≠ inner) : [inner, outer] <+ places := by
  obtain ⟨front, back, rfl⟩ := List.append_of_mem houter
  rcases List.mem_append.mp hinner with hfront | hback
  · exact (List.singleton_sublist.mpr hfront).append (List.singleton_sublist.mpr (by simp))
  · have hbehind : inner ∈ back := (List.mem_cons.mp hback).resolve_left (Ne.symm hne)
    exact absurd hahead (List.rel_of_pairwise_cons (List.pairwise_append.mp h).2.1 hbehind)

/-- Trees that are visited inwards make a forest that is. -/
theorem inward_below (h : ∀ places ∈ family, Inward places) (n : Nat) : Inward (below n family) := by
  induction family generalizing n with
  | nil => exact .nil
  | cons first family ih =>
    rw [List.forall_mem_cons] at h
    refine List.pairwise_append.mpr ⟨?_, ih h.2 (n + 1), ?_⟩
    · refine List.pairwise_map.mpr (h.1.imp fun hahead hcons => hahead ?_)
      exact (List.cons_prefix_cons.mp hcons).2
    · intro place hplace other hother hahead
      obtain ⟨rest, -, rfl⟩ := List.mem_map.mp hplace
      obtain ⟨i, places, rest', -, -, rfl⟩ := mem_below.mp hother
      have hnumber := (List.cons_prefix_cons.mp hahead).1
      omega

theorem mem_forestPlaces (h : ∀ e ∈ trees, ∀ place, place ∈ e.places ↔ (e.at? place).isSome) :
    place ∈ forestPlaces trees ↔ (forestAt? trees place).isSome := by
  -- A place in a forest is the number of a tree and a place in that tree.
  rw [forestPlaces, mem_below]
  constructor
  · rintro ⟨i, places, rest, hi, hrest, rfl⟩
    rw [List.getElem?_map, Option.map_eq_some_iff] at hi
    obtain ⟨e, he, rfl⟩ := hi
    rw [Nat.zero_add, forestAt?, he]
    exact (h e (List.mem_of_getElem? he) rest).mp hrest
  · intro hsome
    cases place with
    | nil => cases hsome
    | cons i rest =>
      rw [forestAt?] at hsome
      cases he : trees[i]? with
      | none => rw [he] at hsome; cases hsome
      | some e =>
        rw [he] at hsome
        refine ⟨i, e.places, rest, ?_, (h e (List.mem_of_getElem? he) rest).mpr hsome, ?_⟩
        · rw [List.getElem?_map, he]
          rfl
        · rw [Nat.zero_add]

namespace Expression

/-- A walk visits what stands at its places. -/
theorem map_at?_places (e : Expression) : e.places.map e.at? = e.walk.map some := by
  induction e using children_induction with
  | h e ih =>
    rw [places_eq, walk_eq, List.map_append, List.map_append, map_look_below e.looksInto_at? ih]
    rfl

theorem mem_places (e : Expression) (place : Place) :
    place ∈ e.places ↔ (e.at? place).isSome := by
  induction e using children_induction generalizing place with
  | h e ih =>
    rw [places_eq_forest, List.mem_append, List.mem_singleton, mem_forestPlaces ih]
    cases place with
    | nil => simp [at?]
    | cons n place => simp [at?, forestAt?]

theorem inward_places (e : Expression) : Inward e.places := by
  induction e using children_induction with
  | h e ih =>
    rw [places_eq]
    refine List.pairwise_append.mpr ⟨inward_below (List.forall_mem_map.mpr ih) 0,
      List.pairwise_singleton _ _, ?_⟩
    rintro place hplace outer houter hahead
    rw [List.mem_singleton.mp houter, List.prefix_nil] at hahead
    exact nil_notMem_below (hahead ▸ hplace)

/-- A walk visits every sub-expression once, and children before their parents. -/
theorem visitsOnce_places (e : Expression) : VisitsOnce e.at? e.places where
  nodup := e.inward_places.nodup
  mem_iff := e.mem_places
  inside_first _ hinner _ houter := e.inward_places.inside_first hinner houter

end Expression

namespace Recipe

/-- The expressions of the rules. -/
def forest (recipe : Recipe) : List Expression :=
  recipe.rules.map (·.expression)

/-- What stands at a place of the rules. -/
def at? (recipe : Recipe) : Place → Option Expression :=
  forestAt? recipe.forest

/-- The places of all sub-expressions, in the order in which the rules are walked. -/
def places (recipe : Recipe) : List Place :=
  forestPlaces recipe.forest

theorem map_at?_places (recipe : Recipe) :
    recipe.places.map recipe.at? = recipe.expressions.map some := by
  rw [places, forestPlaces, at?, map_look_below (looksInto_forestAt? _) fun e _ => e.map_at?_places,
    forest, List.flatMap_map]
  rfl

theorem visitsOnce_places (recipe : Recipe) : VisitsOnce recipe.at? recipe.places :=
  have hinward : Inward recipe.places :=
    inward_below (List.forall_mem_map.mpr fun e _ => e.inward_places) 0
  { nodup := hinward.nodup
    mem_iff := fun _ => mem_forestPlaces fun e _ => e.mem_places
    inside_first := fun _ hinner _ houter => hinward.inside_first hinner houter }

end Recipe

end Cookbook
