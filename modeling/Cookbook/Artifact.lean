import Cookbook.Artifact.Body
import Cookbook.Recipe
import Cookbook.Registration
import Cookbook.Registration.Rules

/-!
# Compiling artifacts

An artifact is a text in some dialect that holds one recipe and the call that registers it. It
compiles to one recipe for each constraint that the call names.

## Main definitions

* `Artifact.compile`: the recipes of an artifact.
-/

namespace Cookbook

open Cookbook.Text

/-- The text of a recipe with its registration. -/
structure Artifact where
  text : String
  dialect : Dialect
  /-- What the artifact is known as in messages. -/
  source : String
  deriving Inhabited

namespace Artifact

/-- The last line of a text that is not blank, without blanks around it. -/
def lastLine? (text : List Char) : Option (List Char) :=
  (((fullLines text).map trim).filter fun line => !line.isEmpty).getLast?

/-- The entrypoint that a header names: its last line after the call, or else the call's own last
line. -/
def headerEntrypoint (interior : List Char) (registration : Registration) : String :=
  let named :=
    -- The cut is right behind the call, so what is left of the call's line is a line as well.
    match lastLine? (dropBytes registration.stop interior) with
    | some line => some line
    | none => lastLine? (takeBytes registration.stop interior)
  String.ofList (named.getD [])

/-- The entrypoint of a recipe: the one that the call sets, or else what the dialect provides. -/
def entrypoint (dialect : Dialect) (introducers : Introducers) (interior : List Char)
    (registration : Registration) : String :=
  match registration.settings.entrypoint with
  | some name => name
  | none =>
    if dialect = .native then introducers.payload
    else if dialect.namesEntrypointInHeader then headerEntrypoint interior registration
    else ""

/-- The rules that a registration declares, in order. -/
def declaredRules (header : Header) (registration : Registration) : Except Error (List Rule) :=
  match registration.settings.args with
  | some map => compileRules header.lineAt map
  | none => .ok []

/-- The recipe of an artifact for one of its constraints. -/
def recipeOf (introducers : Introducers) (artifact : Artifact) (header : Header)
    (registration : Registration) (body : List Char) (rules : List Rule) (constraint : String) :
    Recipe where
  constraint
  entrypoint := entrypoint artifact.dialect introducers header.interior registration
  dialect := artifact.dialect
  preamble := registration.settings.preamble.getD ""
  body := String.ofList body
  rules
  requirements := registration.settings.requirements
  source := artifact.source

/-- The recipes of an artifact, one for each constraint in order of declaration. -/
def compile (introducers : Introducers) (artifact : Artifact) : Except Error (List Recipe) := do
  -- The first stage that fails gives the error, so a fault of the body hides one in the rules.
  let text := artifact.text.toList
  let header ← Header.find text artifact.dialect introducers
  let registration ← Registration.parse header.lineAt header.interior
  let body ← Body.find text header artifact.dialect
  let rules ← declaredRules header registration
  return registration.constraints.map
    (recipeOf introducers artifact header registration body rules)

end Artifact

end Cookbook
