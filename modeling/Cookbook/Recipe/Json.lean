import Cookbook.Recipe

/-!
# Recipes as data

The written form of recipes, and its reader. The reader accepts what the writer produces and some
spellings more: fields in any order, fields without a meaning, and records written as the list of
their fields.

## Main definitions

* `Expression.toJson`, `Expression.ofJson?`: a tree is an object that names its kind.
* `Recipe.toJson`, `Recipe.ofJson?`
-/

namespace Cookbook

/-! ## Names of cases -/

/-- The value of a case that is written as an object counts as no data if it is null. -/
def isNull : Json → Bool
  | .null => true
  | _ => false

/-- The dialect of a recipe. -/
def Dialect.ofJson? (value : Json) : Option Dialect := do
  ofName? (← Json.caseName? isNull value)

/-- The type of a slot. An empty object counts as no data too. -/
def TypeTag.ofJson? (value : Json) : Option TypeTag := do
  ofName? (← Json.caseName? (fun data => isNull data || data matches .obj []) value)

/-- A constant. -/
def Literal.ofJson? : Json → Option Literal
  | .null => some .none
  | value =>
    match Slot.read? value with
    | some (.bool b) => some (.bool b)
    | some (.int n) => some (.int n)
    | some (.string s) => some (.text s)
    | Option.none => Option.none

/-! ## Expressions -/

namespace Expression

mutual

/-- The written form of an expression. -/
def toJson : Expression → Json
  | field base path =>
    .obj [("kind", .str "field_access"), ("base", .str base), ("path", .arr (path.map .str))]
  | format template arguments =>
    .obj [("kind", .str "format"), ("template", .str template),
      ("args", .arr (argumentsToJson arguments))]
  | literal value => .obj [("kind", .str "literal"), ("value", value.toJson)]
  | capture key value tag =>
    .obj [("kind", .str "context_capture"), ("key", .str key), ("value", toJson value),
      ("type_tag", .str tag.name)]
  | get key tag =>
    .obj [("kind", .str "context_get"), ("key", .str key), ("type_tag", .str tag.name)]
  | conditional condition thenBranch otherwise =>
    .obj [("kind", .str "conditional"), ("condition", toJson condition),
      ("then", toJson thenBranch), ("otherwise", toJson otherwise)]

/-- The written form of template arguments; a positional one has no name. -/
def argumentsToJson : List (Argument Expression) → List Json
  | [] => []
  | ⟨none, value⟩ :: arguments => .obj [("value", toJson value)] :: argumentsToJson arguments
  | ⟨some label, value⟩ :: arguments =>
    .obj [("name", .str label), ("value", toJson value)] :: argumentsToJson arguments

end

/-- The kinds of expressions. -/
inductive Kind where
  | field
  | format
  | literal
  | capture
  | get
  | conditional
  deriving DecidableEq, Repr

namespace Kind

/-- All kinds. -/
def all : List Kind := [field, format, literal, capture, get, conditional]

/-- The name of a kind. -/
def name : Kind → String
  | field => "field_access"
  | format => "format"
  | literal => "literal"
  | capture => "context_capture"
  | get => "context_get"
  | conditional => "conditional"

/-- The fields of the expressions of a kind, in order. -/
def fields : Kind → List String
  | field => ["base", "path"]
  | format => ["template", "args"]
  | literal => ["value"]
  | capture => ["key", "value", "type_tag"]
  | get => ["key", "type_tag"]
  | conditional => ["condition", "then", "otherwise"]

/-- The kind that a value names. Inside another expression its position in `all` names it too. -/
def ofJson? (inner : Bool) : Json → Option Kind
  | .str s => all.find? fun kind => kind.name = s
  | .number (.int n) => if inner && 0 ≤ n then all[n.toNat]? else none
  | _ => none

/-- The kind of an expression and its fields: those of an object that names its kind, or the items
of a list that starts with its kind. -/
def split? (inner : Bool) : Json → Option (Kind × List (Option Json))
  | .obj written => do
    let kind ←
      match ← Json.fields? ["kind"] written with
      | [some kind] => ofJson? inner kind
      | _ => none
    return (kind, ← Json.fields? kind.fields written)
  | .arr (kind :: items) => do
    let kind ← ofJson? inner kind
    return (kind, ← Json.record? kind.fields (.arr items))
  | _ => none

end Kind

/-- Reads one expression, given a reader of the expressions inside it. -/
def ofJsonWith? (nested : Json → Option Expression) (inner : Bool) (value : Json) :
    Option Expression := do
  match ← Kind.split? inner value with
  | (.field, [some base, some path]) => return field (← base.text?) (← path.list? Json.text?)
  | (.format, [some template, some arguments]) =>
    let template ← template.text?
    let arguments ← arguments.list? fun a => do
      match ← Json.record? ["name", "value"] a with
      | [label, some value] =>
        let label ← (label.getD .null).optional? Json.text?
        return ⟨label, ← nested value⟩
      | _ => none
    return format template arguments
  | (.literal, [some value]) => return literal (← Literal.ofJson? value)
  | (.capture, [some key, some value, some tag]) =>
    return capture (← key.text?) (← nested value) (← TypeTag.ofJson? tag)
  | (.get, [some key, some tag]) => return get (← key.text?) (← TypeTag.ofJson? tag)
  | (.conditional, [some condition, some thenBranch, some otherwise]) =>
    return conditional (← nested condition) (← nested thenBranch) (← nested otherwise)
  | _ => none

/-- Reads expressions that stand at most `depth` deep inside one another. -/
def ofJsonAt? : Nat → Bool → Json → Option Expression
  | 0, _, _ => none
  | depth + 1, inner, value => ofJsonWith? (ofJsonAt? depth true) inner value

end Expression

namespace Json

mutual

/-- How deep containers stand inside one another in a value. -/
def depth : Json → Nat
  | arr items => depthItems items + 1
  | obj fields => depthFields fields + 1
  | _ => 0

/-- The greatest depth of some items. -/
def depthItems : List Json → Nat
  | [] => 0
  | item :: items => max (depth item) (depthItems items)

/-- The greatest depth of some fields. -/
def depthFields : List (String × Json) → Nat
  | [] => 0
  | (_, value) :: fields => max (depth value) (depthFields fields)

end

end Json

/-- Reads an expression. -/
def Expression.ofJson? (value : Json) : Option Expression :=
  ofJsonAt? value.depth false value

/-! ## Recipes -/

/-- The written form of a rule. -/
def Rule.toJson (rule : Rule) : Json :=
  .obj [("parameter_name", .str rule.parameter),
    ("declared_dependencies", .arr (rule.dependencies.map .str)),
    ("expression", rule.expression.toJson)]

/-- Reads a rule. -/
def Rule.ofJson? (value : Json) : Option Rule := do
  match ← value.record? ["parameter_name", "declared_dependencies", "expression"] with
  | [some parameter, some dependencies, some expression] =>
    return ⟨← parameter.text?, ← dependencies.list? Json.text?, ← Expression.ofJson? expression⟩
  | _ => none

namespace Recipe

/-- The written form of a recipe. -/
def toJson (recipe : Recipe) : Json :=
  .obj [("constraint_name", .str recipe.constraint), ("entrypoint", .str recipe.entrypoint),
    ("dialect", .str recipe.dialect.name), ("preamble", .str recipe.preamble),
    ("body", .str recipe.body), ("argument_rules", .arr (recipe.rules.map Rule.toJson)),
    ("extra_requirements", .arr (recipe.requirements.map .str)),
    ("source_id", .str recipe.source)]

/-- Reads a recipe. -/
def ofJson? (value : Json) : Option Recipe := do
  let names := ["constraint_name", "entrypoint", "dialect", "preamble", "body", "argument_rules",
    "extra_requirements", "source_id"]
  match ← value.record? names with
  | [some constraint, some entrypoint, some dialect, some preamble, some body, some rules,
      some requirements, some source] =>
    return {
      constraint := ← constraint.text?
      entrypoint := ← entrypoint.text?
      dialect := ← Dialect.ofJson? dialect
      preamble := ← preamble.text?
      body := ← body.text?
      rules := ← rules.list? Rule.ofJson?
      requirements := ← requirements.list? Json.text?
      source := ← source.text? }
  | _ => none

end Recipe

end Cookbook
