import Cookbook.CommandLine
import Cookbook.Proofs.Except

/-!
# Recipes and registries read back

What is written as data is read back as it was: every expression at any depth, every recipe, and
every registry with its constraints and candidates in their order.

The reader of expressions is bounded by the depth of the data, and a child of an expression is
written less deep than the expression itself.

## Main results

* `Expression.ofJson?_toJson`, `Rule.ofJson?_toJson`, `Recipe.ofJson?_toJson`
* `Registry.ofJson?_toJson`
* `recipes_and_registries_readBack`: all of it.
-/

namespace Cookbook

/-! ## Texts, names and constants -/

/-- A list is read back if each of its items is. -/
theorem Json.list?_map {α : Type} {read : Json → Option α} {written : α → Json} {items : List α}
    (h : ∀ item ∈ items, read (written item) = some item) :
    (Json.arr (items.map written)).list? read = some items := by
  show (items.map written).mapM read = some items
  rw [mapM_eq_some_iff, List.forall₂_map_left_iff, List.forall₂_same]
  exact h

theorem Json.list?_texts (texts : List String) :
    (Json.arr (texts.map .str)).list? Json.text? = some texts :=
  list?_map fun _ _ => rfl

theorem Dialect.ofJson?_name (dialect : Dialect) :
    Dialect.ofJson? (.str dialect.name) = some dialect := by
  cases dialect <;> rfl

theorem TypeTag.ofJson?_name (tag : TypeTag) : TypeTag.ofJson? (.str tag.name) = some tag :=
  TypeTag.ofName?_name tag

/-- The types are told apart by the data: no value of one type is read at another. -/
theorem Slot.read?_toJson (slot : Slot) : Slot.read? slot.toJson = some slot := by
  cases slot with
  | bool b => rfl
  | string s => rfl
  | int n =>
    have hint : Slot.ofJson? .int (.int n.toInt) = some (.int n) := Slot.ofJson?_toJson (.int n)
    rw [Slot.read?, Slot.toJson, List.findSome?_cons]
    show (List.findSome? (fun tag => Slot.ofJson? tag (.int n.toInt)) [.int, .string]) = _
    rw [List.findSome?_cons, hint]

theorem Literal.ofJson?_toJson (value : Literal) : Literal.ofJson? value.toJson = some value := by
  cases value with
  | none => rfl
  | bool b => rfl
  | text s => rfl
  | int n =>
    have hslot : Slot.read? (.int n.toInt) = some (.int n) := Slot.read?_toJson (.int n)
    rw [Literal.toJson, Literal.ofJson?, hslot]
    exact fun h => by cases h

/-! ## Depth -/

namespace Json

theorem depth_le_depthItems {item : Json} {items : List Json} (h : item ∈ items) :
    item.depth ≤ depthItems items := by
  induction items with
  | nil => cases h
  | cons first items ih =>
    rw [depthItems]
    rcases List.mem_cons.mp h with rfl | h
    · exact Nat.le_max_left _ _
    · exact Nat.le_trans (ih h) (Nat.le_max_right _ _)

theorem depth_le_depthFields {field : String × Json} {fields : List (String × Json)}
    (h : field ∈ fields) : field.2.depth ≤ depthFields fields := by
  induction fields with
  | nil => cases h
  | cons first fields ih =>
    obtain ⟨name, value⟩ := first
    rw [depthFields]
    rcases List.mem_cons.mp h with rfl | h
    · exact Nat.le_max_left _ _
    · exact Nat.le_trans (ih h) (Nat.le_max_right _ _)

/-- What a list holds is less deep than the list. -/
theorem depth_lt_arr {item : Json} {items : List Json} (h : item ∈ items) :
    item.depth < (arr items).depth := by
  rw [depth]
  exact Nat.lt_succ_of_le (depth_le_depthItems h)

/-- What an object holds is less deep than the object. -/
theorem depth_lt_obj {field : String × Json} {fields : List (String × Json)}
    (h : field ∈ fields) : field.2.depth < (obj fields).depth := by
  rw [depth]
  exact Nat.lt_succ_of_le (depth_le_depthFields h)

end Json

/-! ## Expressions -/

namespace Expression

/-- The written form of one template argument. -/
def writtenArgument (a : Argument Expression) : Json :=
  .obj ((a.label.toList.map fun label => ("name", .str label)) ++ [("value", a.value.toJson)])

theorem argumentsToJson_eq_map (arguments : List (Argument Expression)) :
    argumentsToJson arguments = arguments.map writtenArgument := by
  induction arguments with
  | nil => rfl
  | cons a arguments ih =>
    obtain ⟨label, value⟩ := a
    cases label with
    | none => rw [argumentsToJson, ih]; rfl
    | some label => rw [argumentsToJson, ih]; rfl

/-- An expression is written deeper than those inside it. -/
theorem depth_lt_of_mem_children {child expression : Expression}
    (h : child ∈ expression.children) : child.toJson.depth < expression.toJson.depth := by
  -- The data of a part stands in a field of that of the whole, and the value of an argument two
  -- levels further down.
  cases expression with
  | field base path => cases h
  | literal value => cases h
  | get key tag => cases h
  | format template arguments =>
    obtain ⟨a, ha, rfl⟩ := List.mem_map.mp h
    have hvalue : a.value.toJson.depth < (writtenArgument a).depth :=
      @Json.depth_lt_obj ("value", a.value.toJson) _ (List.mem_append_right _ List.mem_cons_self)
    have hargument : (writtenArgument a).depth < (Json.arr (arguments.map writtenArgument)).depth :=
      Json.depth_lt_arr (List.mem_map_of_mem ha)
    rw [toJson, argumentsToJson_eq_map]
    exact Nat.lt_trans (Nat.lt_trans hvalue hargument)
      (@Json.depth_lt_obj ("args", .arr (arguments.map writtenArgument)) _ (by simp))
  | capture key value tag =>
    obtain rfl := List.mem_singleton.mp h
    rw [toJson]
    exact @Json.depth_lt_obj ("value", child.toJson) _ (by simp)
  | conditional condition thenBranch otherwise =>
    rw [toJson]
    rcases List.mem_cons.mp h with rfl | h
    · exact @Json.depth_lt_obj ("condition", child.toJson) _ (by simp)
    · rcases List.mem_cons.mp h with rfl | h
      · exact @Json.depth_lt_obj ("then", child.toJson) _ (by simp)
      · obtain rfl := List.mem_singleton.mp h
        exact @Json.depth_lt_obj ("otherwise", child.toJson) _ (by simp)

/-- An expression is read back by a reader that reads those inside it back. -/
theorem ofJsonWith?_toJson {nested : Json → Option Expression} (inner : Bool)
    {expression : Expression}
    (h : ∀ child ∈ expression.children, nested child.toJson = some child) :
    ofJsonWith? nested inner expression.toJson = some expression := by
  -- The data of an expression is tagged with its form. By the tag the reader chooses the form, and
  -- what is left to show is that every field is read back.
  cases expression with
  | field base path =>
    show (do
      return field (← some base) (← (Json.arr (path.map .str)).list? Json.text?)) = _
    rw [Json.list?_texts]
    rfl
  | literal value =>
    show (do return literal (← Literal.ofJson? value.toJson)) = _
    rw [Literal.ofJson?_toJson]
    rfl
  | get key tag =>
    show (do return get (← some key) (← TypeTag.ofJson? (.str tag.name))) = _
    rw [TypeTag.ofJson?_name]
    rfl
  | format template arguments =>
    rw [toJson, argumentsToJson_eq_map]
    show (do
      return format (← some template)
        (← (Json.arr (arguments.map writtenArgument)).list? _)) = _
    rw [Json.list?_map]
    · rfl
    -- An argument is written as a value alone or as a value under its label.
    · intro a ha
      have hvalue := h a.value (List.mem_map_of_mem ha)
      obtain ⟨label, value⟩ := a
      cases label with
      | none =>
        show (do return Argument.mk none (← nested value.toJson)) = _
        rw [hvalue]
        rfl
      | some label =>
        show (do return Argument.mk (some label) (← nested value.toJson)) = _
        rw [hvalue]
        rfl
  | capture key value tag =>
    show (do
      return capture (← some key) (← nested value.toJson) (← TypeTag.ofJson? (.str tag.name))) = _
    rw [h value List.mem_cons_self, TypeTag.ofJson?_name]
    rfl
  | conditional condition thenBranch otherwise =>
    show (do
      return conditional (← nested condition.toJson) (← nested thenBranch.toJson)
        (← nested otherwise.toJson)) = _
    rw [h condition (by simp [children]), h thenBranch (by simp [children]),
      h otherwise (by simp [children])]
    rfl

/-- An expression is read back within any depth that its written form does not exceed. -/
theorem ofJsonAt?_toJson {depth : Nat} (inner : Bool) {expression : Expression}
    (h : expression.toJson.depth ≤ depth) :
    ofJsonAt? depth inner expression.toJson = some expression := by
  induction depth generalizing inner expression with
  | zero =>
    -- Every expression is written as an object.
    cases expression <;> cases h
  | succ depth ih =>
    refine ofJsonWith?_toJson inner fun child hchild => ih true ?_
    exact Nat.le_of_lt_succ (Nat.lt_of_lt_of_le (depth_lt_of_mem_children hchild) h)

theorem ofJson?_toJson (expression : Expression) :
    ofJson? expression.toJson = some expression :=
  ofJsonAt?_toJson false (Nat.le_refl _)

end Expression

/-! ## Rules and recipes -/

theorem Rule.ofJson?_toJson (rule : Rule) : Rule.ofJson? rule.toJson = some rule := by
  show (do
    return Rule.mk (← some rule.parameter)
      (← (Json.arr (rule.dependencies.map .str)).list? Json.text?)
      (← Expression.ofJson? rule.expression.toJson)) = _
  rw [Json.list?_texts, Expression.ofJson?_toJson]
  rfl

theorem Recipe.ofJson?_toJson (recipe : Recipe) : Recipe.ofJson? recipe.toJson = some recipe := by
  show (do
    return Recipe.mk (← some recipe.constraint) (← some recipe.entrypoint)
      (← Dialect.ofJson? (.str recipe.dialect.name)) (← some recipe.preamble)
      (← some recipe.body) (← (Json.arr (recipe.rules.map Rule.toJson)).list? Rule.ofJson?)
      (← (Json.arr (recipe.requirements.map .str)).list? Json.text?) (← some recipe.source)) = _
  rw [Dialect.ofJson?_name, Json.list?_map fun rule _ => Rule.ofJson?_toJson rule,
    Json.list?_texts]
  rfl

/-! ## Registries -/

namespace OrderedMap

variable {α : Type}

theorem write_of_not_mem {key : String} {entries : List (String × α)}
    (h : key ∉ entries.map Prod.fst) (value : α) :
    write key value entries = entries ++ [(key, value)] := by
  induction entries with
  | nil => rfl
  | cons entry entries ih =>
    obtain ⟨other, old⟩ := entry
    rw [List.map_cons, List.mem_cons, not_or] at h
    rw [write, if_neg (Ne.symm h.1), ih h.2, List.cons_append]

/-- New names are written behind those that are there. -/
theorem entries_foldl_insert {entries : List (String × α)} {map : OrderedMap α}
    (h : ((map.entries ++ entries).map Prod.fst).Nodup) :
    (entries.foldl (fun map entry => map.insert entry.1 entry.2) map).entries =
      map.entries ++ entries := by
  induction entries generalizing map with
  | nil => exact (List.append_nil _).symm
  | cons entry entries ih =>
    have hnew : entry.1 ∉ map.entries.map Prod.fst := by
      rw [List.map_append, List.map_cons] at h
      exact fun hmem => (List.nodup_append.mp h).2.2 _ hmem _ List.mem_cons_self rfl
    have hinsert : (map.insert entry.1 entry.2).entries = map.entries ++ [entry] :=
      write_of_not_mem hnew entry.2
    rw [List.foldl_cons, ih (by rwa [hinsert, ← List.append_cons]), hinsert, ← List.append_cons]

/-- A map is made anew from its entries. -/
theorem ofList_entries (map : OrderedMap α) : ofList map.entries = map := by
  have hentries : (ofList map.entries).entries = map.entries :=
    @entries_foldl_insert α map.entries empty map.nodup
  cases hmade : ofList map.entries
  rw [hmade] at hentries
  cases hentries
  rfl

end OrderedMap

/-- A registry is read back with its constraints and their candidates in order. -/
theorem Registry.ofJson?_toJson (registry : Registry) :
    Registry.ofJson? registry.toJson = some registry := by
  have hentries : (registry.entries.entries.map fun entry =>
      (entry.1, Json.arr (entry.2.map Recipe.toJson))).mapM
        (fun field => (field.2.list? Recipe.ofJson?).map (field.1, ·)) =
          some registry.entries.entries := by
    rw [mapM_eq_some_iff, List.forall₂_map_left_iff, List.forall₂_same]
    intro entry _
    rw [Json.list?_map fun recipe _ => Recipe.ofJson?_toJson recipe]
    rfl
  show Option.map Registry.mk (OrderedMap.ofList <$> List.mapM _ _) = _
  rw [hentries]
  exact congrArg (fun entries => some (Registry.mk entries)) (OrderedMap.ofList_entries _)

/-- Whatever is written is read back as it was: every recipe, with expressions of any depth, and
every registry, in its order. -/
theorem recipes_and_registries_readBack :
    (∀ recipe : Recipe, Recipe.ofJson? recipe.toJson = some recipe) ∧
      ∀ registry : Registry, Registry.ofJson? registry.toJson = some registry :=
  ⟨Recipe.ofJson?_toJson, Registry.ofJson?_toJson⟩

end Cookbook
