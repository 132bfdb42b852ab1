import Cookbook.Artifact
import Cookbook.Registry

/-!
# Building a registry from files

The sources of a registry are files, listed by dialect. A build reads and compiles them all and
registers their recipes, dialect by dialect and in the order listed; it fails with the first file
that fails in that order.

Two builds give the same registry. `buildSerially` handles one file after the other;
`buildConcurrently` takes the files as their compilation happens to finish and puts the outcomes in
order afterwards.

## Main definitions

* `Sources`: the files.
* `Sources.buildSerially`, `Sources.buildConcurrently`
-/

namespace Cookbook

/-- How the text of the file at a path is read. -/
abbrev ReadFile := String → Except ReadFailure String

/-- The files of a registry by dialect, and the names that introduce native recipes. -/
structure Sources where
  native : List String
  shell : List String
  query : List String
  statistical : List String
  introducers : Introducers
  deriving DecidableEq, Repr

namespace Sources

/-- No files. -/
def empty : Sources := ⟨[], [], [], [], .default⟩

instance : Inhabited Sources := ⟨empty⟩

/-- The files of one dialect. -/
def paths (sources : Sources) : Dialect → List String
  | .native => sources.native
  | .shell => sources.shell
  | .query => sources.query
  | .statistical => sources.statistical

/-- All files, in the order in which they are registered. -/
def allPaths (sources : Sources) : List String :=
  Dialect.all.flatMap sources.paths

/-- The number of files. -/
def count (sources : Sources) : Nat :=
  sources.allPaths.length

/-- The same sources with each path changed. -/
def mapPaths (f : String → String) (sources : Sources) : Sources :=
  { sources with
    native := sources.native.map f
    shell := sources.shell.map f
    query := sources.query.map f
    statistical := sources.statistical.map f }

end Sources

/-- The recipes of a file. An error is attributed to the file. -/
def compileFile (read : ReadFile) (introducers : Introducers) (dialect : Dialect) (path : String) :
    Except Error (List Recipe) :=
  match read path with
  | .error failure => .error (.inArtifact path (.unreadable failure))
  | .ok text =>
    match Artifact.compile introducers ⟨text, dialect, path⟩ with
    | .ok recipes => .ok recipes
    | .error cause => .error (.inArtifact path cause)

/-! ## One file after the other -/

/-- Registers the recipes of files of one dialect. -/
def registerFiles (read : ReadFile) (introducers : Introducers) (dialect : Dialect) :
    List String → Registry → Except Error Registry
  | [], registry => .ok registry
  | path :: paths, registry => do
    let recipes ← compileFile read introducers dialect path
    registerFiles read introducers dialect paths (registry.registerRecipes recipes)

/-- The registry of recipes that are there already and of files in the marked dialects. -/
def buildRegistry (read : ReadFile) (programs : List (String × Recipe)) (sources : Sources) :
    Except Error Registry := do
  let registry := Registry.empty.registerAll programs
  -- Introducers matter in native artifacts only.
  let registry ← registerFiles read .default .shell sources.shell registry
  let registry ← registerFiles read .default .query sources.query registry
  registerFiles read .default .statistical sources.statistical registry

/-- The recipes of native files, under the constraints that they name. -/
def compileNative (read : ReadFile) (introducers : Introducers) (paths : List String) :
    Except Error (List (String × Recipe)) := do
  let compiled ← paths.mapM (compileFile read introducers .native)
  return compiled.flatten.map fun recipe => (recipe.constraint, recipe)

/-- The registry of all files, handled one after the other. -/
def Sources.buildSerially (read : ReadFile) (sources : Sources) : Except Error Registry := do
  let programs ← compileNative read sources.introducers sources.native
  buildRegistry read programs sources

/-! ## In any order -/

/-- The compilation of one file. Its place is the dialect's and the file's place in the sources. -/
structure Task where
  place : Nat × Nat
  dialect : Dialect
  path : String
  deriving DecidableEq, Repr

/-- The tasks of files of one dialect, the first of them being number `index`. -/
def tasksOf (category : Nat) (dialect : Dialect) (index : Nat) : List String → List Task
  | [] => []
  | path :: paths => ⟨(category, index), dialect, path⟩ :: tasksOf category dialect (index + 1) paths

/-- The tasks of all files, the first dialect being number `category`. -/
def tasksFrom (sources : Sources) (category : Nat) : List Dialect → List Task
  | [] => []
  | dialect :: dialects =>
    tasksOf category dialect 0 (sources.paths dialect) ++ tasksFrom sources (category + 1) dialects

/-- The tasks of a build, in the order in which their outcomes are registered. -/
def Sources.tasks (sources : Sources) : List Task :=
  tasksFrom sources 0 Dialect.all

/-- What a task gives: the recipes of its file, or why there are none. -/
abbrev Outcome := Except Error (List Recipe)

/-- The outcome of a task. -/
def Task.outcome (read : ReadFile) (introducers : Introducers) (task : Task) : Outcome :=
  compileFile read introducers task.dialect task.path

/-- What a task is known as while it runs. -/
abbrev TaskId := Nat

/-- The tasks of a build that run under these ids, each with its place. -/
def Sources.places (sources : Sources) (ids : List TaskId) : List (TaskId × (Nat × Nat)) :=
  ids.zip (sources.tasks.map (·.place))

/-- What the tasks of a build give that run under these ids. -/
def Sources.outcomes (read : ReadFile) (sources : Sources) (ids : List TaskId) :
    List (TaskId × Outcome) :=
  ids.zip (sources.tasks.map (·.outcome read sources.introducers))

/-- Whether one place comes before another. -/
def placeBefore (a b : Nat × Nat) : Bool :=
  a.1 < b.1 || (a.1 == b.1 && a.2 < b.2)

/-- The outcome of a task, at its place. -/
abbrev Finished := (Nat × Nat) × Outcome

/-- Puts an outcome among outcomes in order of their places, instead of one at the same place. -/
def insertFinished (new : Finished) : List Finished → List Finished
  | [] => [new]
  | old :: rest =>
    if placeBefore new.1 old.1 then new :: old :: rest
    else if new.1 = old.1 then new :: rest
    else old :: insertFinished new rest

/-- The place of a task, and the places of the other tasks. -/
def takePlace? (id : TaskId) :
    List (TaskId × (Nat × Nat)) → Option ((Nat × Nat) × List (TaskId × (Nat × Nat)))
  | [] => none
  | (other, place) :: places =>
    if other = id then some (place, places)
    else (takePlace? id places).map fun (found, others) => (found, (other, place) :: others)

/-- Puts outcomes in order of places as the tasks finish. The place of a task is given up when it
finishes; what has no place is dropped. -/
def collectFinished (places : List (TaskId × (Nat × Nat))) (finished : List Finished) :
    List (TaskId × Outcome) → List Finished
  | [] => finished
  | (id, outcome) :: joined =>
    match takePlace? id places with
    -- The places give the order, so it does not matter which task finishes first.
    | some (place, places) => collectFinished places (insertFinished (place, outcome) finished) joined
    | none => collectFinished places finished joined

/-- Registers outcomes in order, up to the first failure. -/
def registerFinished : List Finished → Registry → Except Error Registry
  | [], registry => .ok registry
  | (_, outcome) :: rest, registry => do
    -- All files are compiled by now; the first failure in order counts, not the first in time.
    let recipes ← outcome
    registerFinished rest (registry.registerRecipes recipes)

/-- The registry of all files. Their tasks run under the given ids, and `joined` are the outcomes
under these ids, in the order in which the tasks finish. -/
def Sources.buildConcurrently (sources : Sources) (ids : List TaskId)
    (joined : List (TaskId × Outcome)) : Except Error Registry :=
  registerFinished (collectFinished (sources.places ids) [] joined) .empty

end Cookbook
