import Cookbook.Lint.Diagnostic
import Cookbook.Registry
import Cookbook.Template

/-!
# Well-formed rules

A recipe that no compiler has checked may hold rules that cannot be bound. A rule is well formed if
it reads only ancestors that it declares, declares the context if it uses it, and fills every
placeholder of its templates.

## Main definitions

* `Lint.problem?`: what is wrong with one sub-expression of a rule.
* `Lint.ruleWellFormed`: the reports on all rules of a registry.
-/

namespace Cookbook.Lint

/-- Why an expression cannot stand in its rule. -/
inductive Problem where
  | undeclared (base : String)
  | withoutContext
  | malformedTemplate (template : String) (fault : Template.Fault)
  | unfilledTemplate (template : String)
  deriving DecidableEq, Repr

/-- The wording of a problem, after the argument that has it. -/
def Problem.message : Problem → String
  | undeclared base => "reads '" ++ base ++ "', which is not a declared dependency"
  | withoutContext => "uses the context without a 'context' parameter"
  | malformedTemplate template fault => fault.message template
  | unfilledTemplate template => "has template \"" ++ template ++ "\" with an unfilled placeholder"

/-- Whether arguments with these labels fill every placeholder: there are as many positional ones as
empty placeholders, and every index and every name is there. -/
def fills (labels : List (Option String)) (pieces : List Piece) : Bool :=
  let positionals := labels.count none
  pieces.count (.hole .next) ≤ positionals &&
    pieces.all fun
      | .hole (.index i) => i < positionals
      | .hole (.named n) => labels.contains (some n)
      | .hole .next | .text _ => true

/-- What is wrong with a template and the labels of its arguments. -/
def templateProblem? (template : String) (labels : List (Option String)) : Option Problem :=
  match Template.parse template with
  | .error fault => some (.malformedTemplate template fault)
  | .ok pieces => if fills labels pieces then none else some (.unfilledTemplate template)

/-- What is wrong with a sub-expression of a rule, its own sub-expressions aside. -/
def problem? (rule : Rule) : Expression → Option Problem
  | .field base _ =>
    -- The context has no fields, whether the rule declares it or not.
    if base = contextName ∨ base ∉ rule.dependencies then some (.undeclared base) else none
  | .capture .. | .get .. => if rule.usesContext then none else some .withoutContext
  | .format template arguments => templateProblem? template (arguments.map (·.label))
  | .literal _ | .conditional .. => none

/-- The problems of a rule. -/
def problems (rule : Rule) : List Problem :=
  rule.expression.walk.filterMap (problem? rule)

/-- The reports on the rules of a recipe. -/
def wellFormedReports (recipe : Recipe) : List Diagnostic :=
  recipe.rules.flatMap fun rule =>
    (problems rule).map fun problem =>
      .about recipe .ruleWellFormed .error
        ("Argument '" ++ rule.parameter ++ "' " ++ problem.message) none

/-- The reports on the rules of all recipes. -/
def ruleWellFormed (registry : Registry) : List Diagnostic :=
  registry.recipes.flatMap wellFormedReports

end Cookbook.Lint
