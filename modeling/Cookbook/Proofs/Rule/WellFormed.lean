import Cookbook.Proofs.Template.Filling

/-!
# Well-formed expressions

`Expression.WellFormed` says by recursion on the tree what the check of a registry looks for in the
list of all sub-expressions: fields are those of declared ancestors, the context is declared where
it is used, and the placeholders of every template are filled.

## Main results

* `problems_eq_nil_iff`: the check finds nothing exactly if the expression is well formed.
* `ruleWellFormed_eq_nil_iff`: the same for all rules of a registry.
-/

namespace Cookbook

open Cookbook.Text

/-- An expression that a rule with these dependencies may hold. -/
inductive Expression.WellFormed (dependencies : List String) : Expression → Prop where
  /-- A field of a declared ancestor; the context is no ancestor. -/
  | field {base : String} {path : List String} :
      base ∈ dependencies → base ≠ contextName → WellFormed dependencies (.field base path)
  /-- A template whose placeholders the arguments fill. -/
  | format {template : String} {arguments : List (Argument Expression)} {pieces : List Piece} :
      Template.parse template = .ok pieces →
      Template.Filled (arguments.map (·.label)) 0 pieces →
      (∀ a ∈ arguments, WellFormed dependencies a.value) →
      WellFormed dependencies (.format template arguments)
  | literal {value : Literal} : WellFormed dependencies (.literal value)
  /-- A write, if the context is declared. -/
  | capture {key : String} {value : Expression} {tag : TypeTag} :
      contextName ∈ dependencies → WellFormed dependencies value →
      WellFormed dependencies (.capture key value tag)
  /-- A read, if the context is declared. -/
  | get {key : String} {tag : TypeTag} :
      contextName ∈ dependencies → WellFormed dependencies (.get key tag)
  | conditional {condition thenBranch otherwise : Expression} :
      WellFormed dependencies condition → WellFormed dependencies thenBranch →
      WellFormed dependencies otherwise →
      WellFormed dependencies (.conditional condition thenBranch otherwise)

/-- A rule whose expression is well formed under its own dependencies. -/
def Rule.WellFormed (rule : Rule) : Prop :=
  rule.expression.WellFormed rule.dependencies

namespace Lint

/-! ## One sub-expression -/

theorem problem?_field_eq_none_iff (rule : Rule) (base : String) (path : List String) :
    problem? rule (.field base path) = none ↔
      base ∈ rule.dependencies ∧ base ≠ contextName := by
  simp only [problem?]
  split
  · next h =>
    refine iff_of_false (by simp) fun ⟨hbase, hne⟩ => ?_
    rcases h with h | h
    · exact hne h
    · exact h hbase
  · next h =>
    obtain ⟨hne, hbase⟩ := not_or.mp h
    exact iff_of_true rfl ⟨Decidable.not_not.mp hbase, hne⟩

theorem problem?_capture_eq_none_iff (rule : Rule) (key : String) (value : Expression)
    (tag : TypeTag) :
    problem? rule (.capture key value tag) = none ↔ contextName ∈ rule.dependencies := by
  simp [problem?, Rule.usesContext]

theorem problem?_get_eq_none_iff (rule : Rule) (key : String) (tag : TypeTag) :
    problem? rule (.get key tag) = none ↔ contextName ∈ rule.dependencies := by
  simp [problem?, Rule.usesContext]

theorem problem?_format_eq_none_iff (rule : Rule) (template : String)
    (arguments : List (Argument Expression)) :
    problem? rule (.format template arguments) = none ↔
      ∃ pieces, Template.parse template = .ok pieces ∧
        Template.Filled (arguments.map (·.label)) 0 pieces := by
  rw [problem?, templateProblem?]
  cases Template.parse template with
  | error fault => simp
  | ok pieces => simp [Template.fills_eq_true_iff]

/-! ## All sub-expressions -/

theorem mem_walkArguments {arguments : List (Argument Expression)} {e : Expression} :
    e ∈ Expression.walkArguments arguments ↔ ∃ a ∈ arguments, e ∈ a.value.walk := by
  induction arguments with
  | nil => simp [Expression.walkArguments]
  | cons a arguments ih => simp [Expression.walkArguments, ih]

/-- No sub-expression has a problem exactly if the whole is well formed. -/
theorem forall_walk_iff (rule : Rule) (expression : Expression) :
    (∀ e ∈ expression.walk, problem? rule e = none) ↔
      expression.WellFormed rule.dependencies := by
  -- A walk ends with the whole expression. So in each case the last condition is about the
  -- expression itself, and the others are those of the parts.
  induction expression with
  | field base path =>
    rw [Expression.walk, List.forall_mem_singleton, problem?_field_eq_none_iff]
    constructor
    · rintro ⟨hbase, hne⟩
      exact .field hbase hne
    · intro h
      cases h with
      | field hbase hne => exact ⟨hbase, hne⟩
  | format template arguments ih =>
    rw [Expression.walk, List.forall_mem_append, List.forall_mem_singleton,
      problem?_format_eq_none_iff]
    constructor
    · rintro ⟨hvalues, pieces, hparse, hfilled⟩
      refine .format hparse hfilled ?_
      intro a ha
      -- The walk of an argument is a part of the walk of all of them.
      apply (ih a ha).mp
      intro e he
      exact hvalues e (mem_walkArguments.mpr ⟨a, ha, he⟩)
    · intro h
      cases h with
      | @format _ _ pieces hparse hfilled hvalues =>
        refine ⟨?_, pieces, hparse, hfilled⟩
        intro e he
        obtain ⟨a, ha, he⟩ := mem_walkArguments.mp he
        exact (ih a ha).mpr (hvalues a ha) e he
  | literal value =>
    rw [Expression.walk, List.forall_mem_singleton]
    exact iff_of_true rfl .literal
  | capture key value tag ih =>
    rw [Expression.walk, List.forall_mem_append, List.forall_mem_singleton, ih,
      problem?_capture_eq_none_iff]
    constructor
    · rintro ⟨hvalue, hcontext⟩
      exact .capture hcontext hvalue
    · intro h
      cases h with
      | capture hcontext hvalue => exact ⟨hvalue, hcontext⟩
  | get key tag =>
    rw [Expression.walk, List.forall_mem_singleton, problem?_get_eq_none_iff]
    constructor
    · intro hcontext
      exact .get hcontext
    · intro h
      cases h with
      | get hcontext => exact hcontext
  | conditional condition thenBranch otherwise ihc iht iho =>
    simp only [Expression.walk, List.forall_mem_append, List.forall_mem_singleton, ihc, iht, iho]
    constructor
    · rintro ⟨⟨⟨hc, ht⟩, ho⟩, -⟩
      exact .conditional hc ht ho
    · intro h
      cases h with
      | conditional hc ht ho => exact ⟨⟨⟨hc, ht⟩, ho⟩, rfl⟩

/-! ## Rules, recipes and registries -/

theorem problems_eq_nil_iff (rule : Rule) : problems rule = [] ↔ rule.WellFormed := by
  rw [problems, List.filterMap_eq_nil_iff, forall_walk_iff, Rule.WellFormed]

theorem wellFormedReports_eq_nil_iff (recipe : Recipe) :
    wellFormedReports recipe = [] ↔ ∀ rule ∈ recipe.rules, rule.WellFormed := by
  simp only [wellFormedReports, List.flatMap_eq_nil_iff, List.map_eq_nil_iff,
    problems_eq_nil_iff]

theorem ruleWellFormed_eq_nil_iff (registry : Registry) :
    ruleWellFormed registry = [] ↔
      ∀ recipe ∈ registry.recipes, ∀ rule ∈ recipe.rules, rule.WellFormed := by
  simp only [ruleWellFormed, List.flatMap_eq_nil_iff, wellFormedReports_eq_nil_iff]

end Lint

end Cookbook
