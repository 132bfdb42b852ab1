import Cookbook.Dialect
import Cookbook.Expression

/-!
# Recipes

A recipe is one implementation of a constraint, in the uniform form that does not depend on the
dialect of the artifact it came from.
-/

namespace Cookbook

/-- One implementation of a constraint. -/
structure Recipe where
  /-- The constraint that the recipe meets. -/
  constraint : String
  /-- What to call in the body; may be empty. -/
  entrypoint : String
  dialect : Dialect
  /-- Text to be placed before the body. -/
  preamble : String
  /-- The executable part. -/
  body : String
  /-- How the arguments are computed, in order of declaration. -/
  rules : List Rule
  /-- What has to be installed. -/
  requirements : List String
  /-- The artifact that the recipe came from. -/
  source : String
  deriving Inhabited

namespace Recipe

/-- The parameters of a recipe, in order. -/
def parameters (recipe : Recipe) : List String :=
  recipe.rules.map (·.parameter)

/-- Every sub-expression of every rule, in the order in which binding meets them. -/
def expressions (recipe : Recipe) : List Expression :=
  recipe.rules.flatMap fun rule => rule.expression.walk

end Recipe

end Cookbook
