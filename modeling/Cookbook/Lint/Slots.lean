import Cookbook.Lint.Diagnostic
import Cookbook.Registry

/-!
# Checks of context slots

These checks compare where context keys are captured with where they are read, over all recipes of a
registry. The recipes of one artifact share their rules, so the first recipe of each artifact stands
for all of them when captures are collected.
-/

namespace Cookbook.Lint

/-- The keys that a recipe captures, with the types at which it does, in order. -/
def captures (recipe : Recipe) : List (String × TypeTag) :=
  recipe.expressions.filterMap fun
    | .capture key _ tag => some (key, tag)
    | _ => none

/-- The first recipe of each artifact; `seen` lists the artifacts that had one before. -/
def firstOfSource (seen : List String) : List Recipe → List Recipe
  | [] => []
  | recipe :: recipes =>
    if recipe.source ∈ seen then firstOfSource seen recipes
    else recipe :: firstOfSource (recipe.source :: seen) recipes

/-- One recipe of each artifact. -/
def representatives (registry : Registry) : List Recipe :=
  firstOfSource [] registry.recipes

/-- All captures of a registry, one artifact after the other. -/
def allCaptures (registry : Registry) : List (String × TypeTag) :=
  (representatives registry).flatMap captures

/-- The types at which a key is captured. -/
def tagsOf (key : String) (captured : List (String × TypeTag)) : List TypeTag :=
  captured.filterMap fun (k, tag) => if k = key then some tag else none

/-! ## Reads without a capture -/

/-- Whether an artifact other than `source` captures a key. -/
def capturedElsewhere (registry : Registry) (source key : String) : Bool :=
  (representatives registry).any fun other =>
    other.source != source && (captures other).any fun (k, _) => k == key

/-- The keys that are read before they are captured; `seen` lists those captured so far, `known`
tells which ones are captured elsewhere. -/
def unboundReads (known : String → Bool) (seen : List String) : List Expression → List String
  | [] => []
  | .capture key _ _ :: rest => unboundReads known (key :: seen) rest
  | .get key _ :: rest =>
    if key ∈ seen ∨ known key then unboundReads known seen rest
    else key :: unboundReads known seen rest
  | _ :: rest => unboundReads known seen rest

/-- Reports each read of a key that no earlier rule and no other artifact captures. -/
def getWithoutCapture (registry : Registry) : List Diagnostic :=
  registry.recipes.flatMap fun recipe =>
    (unboundReads (capturedElsewhere registry recipe.source) [] recipe.expressions).map fun key =>
      .about recipe .getWithoutCapture .warning
        ("'" ++ recipe.constraint ++ "' from '" ++ recipe.source ++ "' reads context key '" ++
          key ++ "', which no earlier rule or other recipe captures")
        (some ("Capture '" ++ key ++ "' in an earlier argument rule"))

/-! ## Types -/

/-- Reports each key that is captured at more than one type. -/
def captureTypeConflict (registry : Registry) : List Diagnostic :=
  let captured := allCaptures registry
  (captured.map Prod.fst).eraseDups.filterMap fun key =>
    let tags := (tagsOf key captured).eraseDups
    if tags.length ≤ 1 then none
    else
      some ⟨.captureTypeConflict, .warning,
        "Context key '" ++ key ++ "' is captured as " ++
          " and ".intercalate (tags.map TypeTag.name),
        none, none, some ("Capture '" ++ key ++ "' with a single type everywhere")⟩

/-- Reports each read of a captured key at a type that no capture has. -/
def getTypeMismatch (registry : Registry) : List Diagnostic :=
  let captured := allCaptures registry
  registry.recipes.flatMap fun recipe =>
    recipe.expressions.filterMap fun
      | .get key tag =>
        match tagsOf key captured with
        | [] => none
        | first :: others =>
          if tag ∈ first :: others then none
          else
            some (.about recipe .getTypeMismatch .warning
              ("Context key '" ++ key ++ "' is read as " ++ tag.name ++ " but only captured as " ++
                first.name)
              (some ("Read '" ++ key ++ "' as " ++ first.name)))
      | _ => none

end Cookbook.Lint
