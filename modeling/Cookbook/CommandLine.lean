import Cookbook.Binding
import Cookbook.CommandLine.Command
import Cookbook.Recipe.Json
import Cookbook.Sources.Manifest

/-!
# Running commands

A command reads files and prints text, or reports why it failed. All of it is a function of the
files, so that a run can be reasoned about.

## Main definitions

* `Command.run`: what a command prints and reports.
* `runProgram`: the same for the program's arguments.
-/

namespace Cookbook

/-- What a run of the program amounts to. -/
structure Run where
  exitCode : Nat
  /-- What is printed. -/
  output : String
  /-- What is reported of a failure. -/
  report : Option String
  deriving DecidableEq, Repr

/-! ## Reports -/

/-- A failure with what it was caused by, outermost first. -/
structure Failure where
  message : String
  causes : List String
  deriving DecidableEq, Repr

namespace Failure

/-- The failures that stand behind an error. -/
def causesOf : Error → List String
  | .inArtifact _ cause => cause.message :: causesOf cause
  | .unreadable failure => [failure.message]
  | .notJson => [Error.notJson.message]
  | _ => []

/-- The failure of an error. -/
def ofError (error : Error) : Failure := ⟨error.message, causesOf error⟩

/-- A failure that an error caused. -/
def because (message : String) (error : Error) : Failure :=
  ⟨message, error.message :: causesOf error⟩

/-- The lines of a text, with an indent in front of each but the first. -/
def indentLines (indent text : String) : String :=
  String.ofList (text.toList.flatMap fun c => if c = '\n' then '\n' :: indent.toList else [c])

/-- The causes in a list with numbers from `number` on. -/
def numbered (number : Nat) : List String → String
  | [] => ""
  | cause :: causes =>
    let label := Number.decimal number
    let padding := String.ofList (List.replicate (5 - label.length) ' ')
    "\n" ++ padding ++ label ++ ": " ++ indentLines "       " cause ++ numbered (number + 1) causes

/-- The text of a failure: its message, and its causes if there are any. Several causes are
numbered. -/
def render (failure : Failure) : String :=
  match failure.causes with
  | [] => failure.message
  | [cause] => failure.message ++ "\n\nCaused by:\n    " ++ indentLines "    " cause
  | causes => failure.message ++ "\n\nCaused by:" ++ numbered 0 causes

end Failure

/-! ## Reading -/

/-- The registry of a manifest. Its files are compiled in the order listed also where they are
handled concurrently, which makes no difference to the outcome. -/
def loadRegistry (read : ReadFile) (path : String) (concurrent : Bool) :
    Except Failure (Manifest × Registry) := do
  let manifest ← (Manifest.load read path).mapError (.because ("loading manifest " ++ path))
  let sources := manifest.sources
  let ids := List.range sources.count
  let registry ←
    (if concurrent then sources.buildConcurrently ids (sources.outcomes read ids)
      else sources.buildSerially read).mapError .ofError
  return (manifest, registry)

/-- The data of a shape in a file. -/
def readData {α : Type} (read : ReadFile) (shape : Json → Option α) (path : String) :
    Except Failure α :=
  match read path with
  | .error failure => .error ⟨"reading " ++ path, [failure.message]⟩
  | .ok text =>
    match Json.read? text.toList >>= shape with
    | some data => .ok data
    | none => .error ⟨"parsing " ++ path, [Error.notJson.message]⟩

/-- Reads the data of ancestors. -/
def Ancestry.ofJson? (value : Json) : Option Ancestry :=
  value.map? fun data => some data.normalize

/-- Reads slots. -/
def Context.ofJson? (value : Json) : Option Context :=
  value.map? Slot.read?

/-! ## Printing -/

/-- A line of output. -/
def line (text : String) : String := text ++ "\n"

/-- The written form of a context. -/
def Context.toJson (context : Context) : Json :=
  .obj (context.entries.map fun (key, slot) => (key, slot.toJson))

/-- The written form of a registry. -/
def Registry.toJson (registry : Registry) : Json :=
  .obj (registry.entries.entries.map fun (constraint, recipes) =>
    (constraint, .arr (recipes.map Recipe.toJson)))

/-- Reads a registry. -/
def Registry.ofJson? (value : Json) : Option Registry :=
  (value.map? (Json.list? Recipe.ofJson?)).map Registry.mk

/-- The numbers of constraints and recipes, and the dialects of each constraint's candidates. -/
def Registry.summary (registry : Registry) : String :=
  line ("Constraints: " ++ Number.decimal registry.size) ++
    line ("Programs: " ++ Number.decimal registry.programCount) ++ line "" ++
    line "Constraints:" ++
    String.join (registry.entries.entries.map fun (constraint, recipes) =>
      line ("  " ++ constraint ++ " [" ++
        ", ".intercalate (recipes.map fun recipe => recipe.dialect.name) ++ "]"))

/-- The written form of a candidate in a list. -/
def candidateSummary (recipe : Recipe) (index : Nat) : Json :=
  .obj [("index", .int index), ("dialect", .str recipe.dialect.name),
    ("entrypoint", .str recipe.entrypoint), ("source", .str recipe.source),
    ("parameters", .arr (recipe.parameters.map .str))]

/-- The written form of bound arguments. -/
def Binding.toJson (binding : Binding) (constraint source : String) : Json :=
  Json.normalize (.obj [("constraint", .str constraint), ("source", .str source),
    ("arguments", .obj binding.arguments.entries), ("context", binding.context.toJson)])

/-- The severity of a report in a list. -/
def Lint.Severity.label : Lint.Severity → String
  | .error => "ERROR"
  | .warning => "WARN"
  | .info => "INFO"

/-- A report on one line. -/
def Lint.Diagnostic.render (report : Lint.Diagnostic) : String :=
  let place :=
    match report.source with
    | some source => " (" ++ source ++ ")"
    | none => ""
  "[" ++ report.severity.label ++ "] " ++ report.check.name ++ place ++ ": " ++ report.message

/-! ## Commands -/

namespace Command

/-- Prints the recipes of an artifact. -/
def runCompile (read : ReadFile) (path : String) (dialect : Option Dialect)
    (decorator payload : Option String) : Except Failure String :=
  match dialect.or (Path.extension? path >>= Dialect.ofExtension?) with
  | none => .error ⟨"Cannot infer dialect of " ++ path ++ "; pass --dialect", []⟩
  | some dialect =>
    let introducers : Introducers :=
      ⟨decorator.getD Introducers.default.decorator, payload.getD Introducers.default.payload⟩
    match read path with
    | .error failure => .error (.ofError (.unreadable failure))
    | .ok text =>
      match Artifact.compile introducers ⟨text, dialect, path⟩ with
      | .error error => .error (.ofError error)
      | .ok recipes => .ok (line (Json.pretty (.arr (recipes.map Recipe.toJson))))

/-- Prints the candidates of a constraint. -/
def runCandidates (read : ReadFile) (manifest constraint : String) : Except Failure String := do
  let (_, registry) ← loadRegistry read manifest false
  match registry.candidates constraint with
  | [] => return line ("No candidates registered for " ++ constraint)
  | found => return line (Json.pretty (.arr (found.mapIdx fun i r => candidateSummary r i)))

/-- Prints the arguments of a candidate. -/
def runBind (read : ReadFile) (manifest constraint ancestry : String) (candidate : Nat)
    (context : Option String) : Except Failure String := do
  let (_, registry) ← loadRegistry read manifest false
  let found := registry.candidates constraint
  match found[candidate]? with
  | none =>
    .error ⟨"Constraint " ++ constraint ++ " has " ++ Number.decimal found.length ++
      " candidate(s); no candidate " ++ Number.decimal candidate, []⟩
  | some recipe =>
    let ancestry ← readData read Ancestry.ofJson? ancestry
    let seed ←
      match context with
      | some path => readData read Context.ofJson? path
      | none => .ok .empty
    let binding ← (recipe.bind ancestry seed).mapError .ofError
    return line (binding.toJson constraint recipe.source).pretty

/-- Prints the reports on a registry; the run fails if one of them is an error. -/
def runLint (read : ReadFile) (path : String) : Except Failure Run := do
  let (manifest, registry) ← loadRegistry read path false
  match registry.lint manifest.lintConfig with
  | [] => return ⟨0, line "Registry is valid", none⟩
  | reports =>
    let failed := reports.any fun report => report.severity = .error
    return ⟨if failed then 1 else 0, String.join (reports.map fun r => line r.render), none⟩

/-- What a command prints, with success. -/
def printed (output : Except Failure String) : Except Failure Run := do
  return ⟨0, ← output, none⟩

/-- The outcome of a command. -/
def outcome (read : ReadFile) : Command → Except Failure Run
  | .compile artifact dialect decorator payload =>
    printed (runCompile read artifact dialect decorator payload)
  | .build manifest concurrent json => printed do
    let (_, registry) ← loadRegistry read manifest concurrent
    return if json then line registry.toJson.pretty else registry.summary
  | .candidates manifest constraint => printed (runCandidates read manifest constraint)
  | .bind manifest constraint ancestry candidate context =>
    printed (runBind read manifest constraint ancestry candidate context)
  | .lint manifest => runLint read manifest

/-- What a command prints and reports. -/
def run (read : ReadFile) (command : Command) : Run :=
  match command.outcome read with
  | .ok run => run
  | .error failure => ⟨1, "", some failure.render⟩

/-- The files that a command names. -/
def files : Command → List String
  | .compile artifact .. => [artifact]
  | .build manifest .. | .candidates manifest _ | .lint manifest => [manifest]
  | .bind manifest _ ancestry _ context => manifest :: ancestry :: context.toList

/-- The manifest that a command names. -/
def manifest? : Command → Option String
  | .compile .. => none
  | .build manifest .. | .candidates manifest _ | .lint manifest | .bind manifest .. =>
    some manifest

end Command

/-- What the program prints and reports when it is given arguments. -/
def runProgram (read : ReadFile) (arguments : List String) : Run :=
  match Command.parse? arguments with
  | some command => command.run read
  | none => ⟨2, "", none⟩

end Cookbook
