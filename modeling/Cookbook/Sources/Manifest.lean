import Cookbook.Files.Path
import Cookbook.Json.Reader
import Cookbook.Lint
import Cookbook.Sources

/-!
# Manifests

A manifest is a file that lists the sources of a registry, and what is known about the ancestors. Its
relative paths start at the directory of the manifest.

## Main definitions

* `Sources.ofJson?`, `Sources.toJson`
* `Manifest.load`: the manifest in a file.
-/

namespace Cookbook

/-! ## Written forms -/

/-- The written form of introducers. -/
def Introducers.toJson (introducers : Introducers) : Json :=
  .obj [("annotation", .str introducers.decorator), ("payload_function", .str introducers.payload)]

/-- A field that has a usual value if it is not written. -/
def fieldOr {α : Type} (usual : α) (read : Json → Option α) : Option Json → Option α
  | none => some usual
  | some value => read value

/-- Reads introducers; the usual names stand in for those that are not written. -/
def Introducers.ofJson? (value : Json) : Option Introducers := do
  match ← value.record? ["annotation", "payload_function"] with
  | [decorator, payload] =>
    return ⟨← fieldOr default.decorator Json.text? decorator,
      ← fieldOr default.payload Json.text? payload⟩
  | _ => none

namespace Sources

/-- The names of the written fields. -/
def fieldNames : List String := ["native", "shell", "query", "statistical", "options"]

/-- The written fields. -/
def toFields (sources : Sources) : List (String × Json) :=
  [("native", .arr (sources.native.map .str)), ("shell", .arr (sources.shell.map .str)),
    ("query", .arr (sources.query.map .str)),
    ("statistical", .arr (sources.statistical.map .str)),
    ("options", sources.introducers.toJson)]

/-- The written form of sources. -/
def toJson (sources : Sources) : Json :=
  .obj sources.toFields

/-- Reads sources from the values of their fields; lists that are not written are empty. -/
def ofFields? : List (Option Json) → Option Sources
  | [native, shell, query, statistical, options] => do
    let paths := fieldOr [] (Json.list? Json.text?)
    return ⟨← paths native, ← paths shell, ← paths query, ← paths statistical,
      ← fieldOr .default Introducers.ofJson? options⟩
  | _ => none

/-- Reads sources. -/
def ofJson? (value : Json) : Option Sources := do
  ofFields? (← value.record? fieldNames)

end Sources

/-- Reads facts for checks. -/
def Lint.Config.ofJson? (value : Json) : Option Lint.Config := do
  match ← value.record? ["known_ancestors"] with
  | [known] => return ⟨← fieldOr none (Json.optional? (Json.list? Json.text?)) known⟩
  | _ => none

/-! ## Manifests -/

/-- The sources of a registry, and what is known about the ancestors. -/
structure Manifest where
  sources : Sources
  knownAncestors : Option (List String)
  deriving DecidableEq, Repr, Inhabited

namespace Manifest

/-- The written form of a manifest. -/
def toJson (manifest : Manifest) : Json :=
  .obj (manifest.sources.toFields ++
    match manifest.knownAncestors with
    | none => []
    | some names => [("known_ancestors", .arr (names.map .str))])

/-- Reads a manifest, which has to be written as an object. -/
def ofJson? : Json → Option Manifest
  | .obj written => do
    let sources ← Sources.ofFields? (← Json.fields? Sources.fieldNames written)
    let config ← Lint.Config.ofJson? (.obj written)
    return ⟨sources, config.knownAncestors⟩
  | _ => none

/-- The manifest whose text stands in the file at a path; relative paths start at the directory of
that file. -/
def parse (path text : String) : Except Error Manifest :=
  match Json.read? text.toList >>= ofJson? with
  | none => .error .notJson
  | some manifest =>
    match Path.parent? path with
    | none => .ok manifest
    | some directory =>
      .ok { manifest with sources := manifest.sources.mapPaths (Path.join directory) }

/-- The manifest in the file at a path. -/
def load (read : ReadFile) (path : String) : Except Error Manifest :=
  match read path with
  | .error failure => .error (.unreadable failure)
  | .ok text => parse path text

/-- What checks of the registry may assume. -/
def lintConfig (manifest : Manifest) : Lint.Config :=
  ⟨manifest.knownAncestors⟩

end Manifest

end Cookbook
