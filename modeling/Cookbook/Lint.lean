import Cookbook.Error
import Cookbook.Lint.Slots
import Cookbook.Lint.WellFormed
import Cookbook.Text.Blank

/-!
# Checking a registry

Problems of a registry that would show only when a recipe is bound or used: malformed rules, context
keys that are read but not captured or at other types, several candidates in one dialect, unknown
ancestors and missing entrypoints.

## Main definitions

* `Registry.lint`: all reports, check by check.
* `Registry.validate`: the same, but an error if one of them is serious.
-/

namespace Cookbook

open Cookbook.Lint

namespace Lint

/-- Facts that checks need from outside the registry. -/
structure Config where
  /-- The ancestors that there can be; `none` if that is not known. -/
  knownAncestors : Option (List String)
  deriving DecidableEq, Repr

/-- Reports each dialect in which a constraint has more than one candidate. -/
def sameDialectCandidates (registry : Registry) : List Diagnostic :=
  registry.entries.entries.flatMap fun (constraint, candidates) =>
    let dialects := candidates.map (·.dialect)
    dialects.eraseDups.filterMap fun dialect =>
      let count := dialects.count dialect
      if count ≤ 1 then none
      else
        some ⟨.sameDialectCandidates, .info,
          "Constraint '" ++ constraint ++ "' has " ++ Number.decimal count ++ " " ++
            dialect.name ++ " candidates; the first registered is preferred",
          some constraint, none, none⟩

/-- Reports each dependency that is no known ancestor. -/
def unknownAncestor (config : Config) (registry : Registry) : List Diagnostic :=
  match config.knownAncestors with
  | none => []
  | some known =>
    registry.recipes.flatMap fun recipe =>
      recipe.rules.flatMap fun rule =>
        (rule.dependencies.filter fun name => name != contextName && !known.contains name).map
          fun name =>
            .about recipe .unknownAncestor .warning
              ("Argument '" ++ rule.parameter ++ "' depends on '" ++ name ++
                "', which is not a known ancestor")
              (some ("Rename the lambda parameter or add '" ++ name ++ "' to known_ancestors"))

/-- Reports each recipe without entrypoint; a query needs none. -/
def emptyEntrypoint (registry : Registry) : List Diagnostic :=
  (registry.recipes.filter fun recipe =>
      recipe.dialect != .query && (Text.trim recipe.entrypoint.toList).isEmpty).map fun recipe =>
    .about recipe .emptyEntrypoint .warning
      (recipe.dialect.name ++ " recipe for '" ++ recipe.constraint ++ "' has no entrypoint")
      (some "Add entrypoint=\"...\" to the registration call")

end Lint

/-- All reports on a registry. -/
def Registry.lint (registry : Registry) (config : Config) : List Diagnostic :=
  ruleWellFormed registry ++ getWithoutCapture registry ++ captureTypeConflict registry ++
    getTypeMismatch registry ++ sameDialectCandidates registry ++
    unknownAncestor config registry ++ emptyEntrypoint registry

/-- All reports on a registry, unless one of them is an error. -/
def Registry.validate (registry : Registry) (config : Config) :
    Except Error (List Diagnostic) :=
  let reports := registry.lint config
  let errors := reports.filter fun report => report.severity = .error
  if errors.isEmpty then .ok reports
  else .error (.invalidRegistry (errors.map (·.message)))

end Cookbook
