import Cookbook.Proofs.Except
import Cookbook.Proofs.Registration.Arranged
import Cookbook.Proofs.Registration.CallSite

/-!
# Written registrations

How a registration may be written down in a header. The keywords may stand in any order, before,
between and behind the two positional arguments, with gaps around every token; lists may end with a
comma; nothing is said about the lines in front of the call, except that none of them begins with
one.

## Main definitions

* `Content.Written`: how one argument is written.
* `Registration.Listed`: the arguments that declare a registration, in any order of the keywords.
* `Registration.Written`: the headers in which a registration is written down.
-/

namespace Cookbook

open Cookbook.Text

/-! ## Values -/

/-- A list in square brackets of unlabelled items, each of which is written as `item` says. -/
def WrittenList {α : Type} (item : α → List Char → Prop) (values : List α) (text : List Char) :
    Prop :=
  ∃ arguments inner, text = '[' :: inner ++ [']'] ∧ Arranged 0 arguments inner ∧
    List.Forall₂ (fun value (a : Argument Segment) => a.label = none ∧ item value a.value.text)
      values arguments

/-- A text in double quotes. -/
def WrittenText (value : String) (text : List Char) : Prop :=
  text = quoted value.toList

/-- An identifier as an item of a list, bare or in quotes. -/
inductive WrittenName (name : String) : List Char → Prop where
  | bare : isIdentifier name.toList = true → WrittenName name name.toList
  | quoted : isIdentifier name.toList = true → WrittenName name (Text.quoted name.toList)

/-- The constraints of a recipe: one bare identifier, or a list of at least one. -/
inductive WrittenTarget : List String → List Char → Prop where
  | one {name : String} : isIdentifier name.toList = true → WrittenTarget [name] name.toList
  | many {names : List String} {text : List Char} : names ≠ [] →
      WrittenList WrittenName names text → WrittenTarget names text

/-! ## Arguments -/

/-- What an argument of a registration call says. -/
inductive Content where
  | handle (name : String)
  | target (constraints : List String)
  | args (map : Segment)
  | entrypoint (text : String)
  | preamble (text : String)
  | requirements (label : String) (texts : List String)
  deriving DecidableEq

namespace Content

/-- The label of the argument; the handle and the target have none. -/
def label? : Content → Option String
  | handle _ | target _ => none
  | args _ => some "args"
  | entrypoint _ => some "entrypoint"
  | preamble _ => some "preamble"
  | requirements label _ => some label

/-- The argument that says it, with the value at any offset. -/
inductive Written : Content → Argument Segment → Prop where
  -- Positional arguments.
  | handle {name : String} {offset : Nat} : isIdentifier name.toList = true →
      Written (handle name) ⟨none, ⟨offset, name.toList⟩⟩
  | target {constraints : List String} {value : Segment} : WrittenTarget constraints value.text →
      Written (target constraints) ⟨none, value⟩
  -- Labelled arguments. Only the map is kept with the place where it stands.
  | args {map : Segment} : IsMap map.text → Written (args map) ⟨some "args", map⟩
  | entrypoint {text : String} {value : Segment} : WrittenText text value.text →
      Written (entrypoint text) ⟨some "entrypoint", value⟩
  | preamble {text : String} {value : Segment} : WrittenText text value.text →
      Written (preamble text) ⟨some "preamble", value⟩
  | requirements {label : String} {texts : List String} {value : Segment} :
      label ∈ ["pip_requirements", "requirements"] → WrittenList WrittenText texts value.text →
      Written (requirements label texts) ⟨some label, value⟩

end Content

/-! ## Registrations -/

namespace Registration

/-- What sets the argument map, the entrypoint and the preamble, each of them if there is one. -/
def settingContents (settings : Settings) : List Content :=
  (settings.args.map .args).toList ++ (settings.entrypoint.map .entrypoint).toList ++
    (settings.preamble.map .preamble).toList

/-- The contents under labels that make the settings. If nothing is required, the requirements are
an empty list, or they are left out. -/
inductive Labelled (settings : Settings) : List Content → Prop where
  | listed (label : String) :
      Labelled settings (settingContents settings ++ [.requirements label settings.requirements])
  | omitted : settings.requirements = [] → Labelled settings (settingContents settings)

/-- Contents that declare a registration: a handle, the constraints behind it, and the settings in
any order anywhere. -/
structure Listed (registration : Registration) (contents : List Content) : Prop where
  positional : ∃ handle, contents.filter (·.label?.isNone) =
    [.handle handle, .target registration.constraints]
  labelled : ∃ labelled, Labelled registration.settings labelled ∧
    (contents.filter (·.label?.isSome)).Perm labelled

/-- The registration is written down at a call site, by arguments with these contents. -/
structure Written (registration : Registration) (site : CallSite) (contents : List Content)
    (arguments : List (Argument Segment)) : Prop where
  name : registration.name = site.call.name
  start : registration.start = site.call.start
  stop : registration.stop = site.call.closeAt + 1
  listed : registration.Listed contents
  written : List.Forall₂ Content.Written contents arguments
  arranged : Arranged (site.call.openAt + 1) arguments site.inner

end Registration

end Cookbook
