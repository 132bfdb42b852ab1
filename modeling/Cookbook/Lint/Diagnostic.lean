import Cookbook.Recipe

/-!
# Diagnostics

What the checks of a registry report, and how seriously.
-/

namespace Cookbook.Lint

/-- How serious a report is. -/
inductive Severity where
  | error
  | warning
  | info
  deriving DecidableEq, Repr

/-- The name of a severity. -/
def Severity.name : Severity → String
  | error => "error"
  | warning => "warning"
  | info => "info"

/-- The checks. -/
inductive Check where
  /-- A rule reads, uses or fills what it may not or cannot. -/
  | ruleWellFormed
  /-- A context key is read that nothing captures. -/
  | getWithoutCapture
  /-- A context key is captured at several types. -/
  | captureTypeConflict
  /-- A context key is read at a type that nothing captures it at. -/
  | getTypeMismatch
  /-- A constraint has several candidates in one dialect. -/
  | sameDialectCandidates
  /-- A rule depends on an ancestor that is not known. -/
  | unknownAncestor
  /-- A recipe has nothing to call. -/
  | emptyEntrypoint
  deriving DecidableEq, Repr

/-- The name of a check. -/
def Check.name : Check → String
  | ruleWellFormed => "rule_well_formed"
  | getWithoutCapture => "get_without_capture"
  | captureTypeConflict => "capture_type_conflict"
  | getTypeMismatch => "get_type_mismatch"
  | sameDialectCandidates => "same_dialect_candidates"
  | unknownAncestor => "unknown_ancestor"
  | emptyEntrypoint => "empty_entrypoint"

/-- A report of a check. -/
structure Diagnostic where
  check : Check
  severity : Severity
  message : String
  /-- The constraint concerned, if there is one. -/
  constraint : Option String
  /-- The artifact concerned, if there is one. -/
  source : Option String
  /-- What to do about it. -/
  fix : Option String
  deriving DecidableEq, Repr

/-- A report about one recipe. -/
def Diagnostic.about (recipe : Recipe) (check : Check) (severity : Severity) (message : String)
    (fix : Option String) : Diagnostic :=
  ⟨check, severity, message, some recipe.constraint, some recipe.source, fix⟩

end Cookbook.Lint
