import Cookbook.Expression
import Cookbook.Rule.Construct
import Cookbook.Rule.Term

/-!
# The expression of a term

A term of the rule grammar is given a meaning: dotted names are fields of ancestors, sums of text
and calls of `format` are templates, `capture` and `get` are accesses to the context. Every other
term is an unsupported construct.

## Main definitions

* `Rule.lower`: the expression of a term, under the formals of its rule.
-/

namespace Cookbook.Rule

/-! ## Context primitives -/

/-- An access to the context, with the type that its name implies. -/
inductive Primitive where
  | capture (implied : Option TypeTag)
  | get (implied : Option TypeTag)
  deriving DecidableEq, Repr

namespace Primitive

/-- The name of a primitive. -/
def name : Primitive → String
  | capture none => "capture"
  | capture (some .string) => "capture_str"
  | capture (some .int) => "capture_int"
  | capture (some .bool) => "capture_bool"
  | get none => "get"
  | get (some .string) => "get_str"
  | get (some .int) => "get_int"
  | get (some .bool) => "get_bool"

/-- All primitives. -/
def all : List Primitive :=
  [none, some .string, some .int, some .bool].flatMap fun tag => [capture tag, get tag]

/-- The primitive of a name. -/
def ofName? (name : String) : Option Primitive :=
  all.find? fun p => p.name = name

/-- The type that the name of a primitive implies. -/
def implied? : Primitive → Option TypeTag
  | capture tag => tag
  | get tag => tag

/-- The most positional arguments that a primitive takes; the last of them is the type. -/
def arity : Primitive → Nat
  | capture _ => 3
  | get _ => 2

end Primitive

/-- The type that a rule's author names. -/
def typeNamed? : String → Option TypeTag
  | "str" | "string" | "String" => some .string
  | "int" | "i64" | "Int" => some .int
  | "bool" | "Bool" => some .bool
  | _ => none

/-! ## Fields -/

/-- The name and the path of a dotted name. -/
def dotted? : Term → Option (String × List String)
  | .name base => some (base, [])
  | .attribute inner field =>
    match dotted? inner with
    | some (base, path) => some (base, path ++ [field])
    | none => none
  | _ => none

/-- The field of an ancestor that a dotted name denotes. -/
def lowerDotted (formals : List String) (term : Term) : Except Construct Expression :=
  match dotted? term with
  | none => .error .computedAttribute
  | some (base, path) =>
    -- Without a formal of that name, the context's name is unknown like any other.
    if base = contextName ∧ contextName ∈ formals then
      .error (if path.isEmpty then .contextValue else .contextField path)
    else if base ∈ formals then .ok (.field base path)
    else .error (.unknownName base)

/-! ## Templates -/

/-- The first placeholder need that positional arguments and labels do not meet; `next` of the
positional arguments are used up. -/
def firstNeed (positionals : Nat) (labels : List String) (next : Nat) : List Piece → Option Need
  | [] => none
  | .text _ :: pieces => firstNeed positionals labels next pieces
  | .hole .next :: pieces =>
    if positionals < next + 1 then some (.positionals (next + 1))
    else firstNeed positionals labels (next + 1) pieces
  -- An index or a name uses up no positional argument.
  | .hole (.index i) :: pieces =>
    if positionals ≤ i then some (.positional i) else firstNeed positionals labels next pieces
  | .hole (.named n) :: pieces =>
    if n ∈ labels then firstNeed positionals labels next pieces else some (.named n)

/-- A term with its expression. -/
structure Lowered where
  term : Term
  expression : Except Construct Expression

/-- A template whose placeholders the arguments have to fill. -/
def lowerFormat (template : String) (arguments : List (Argument Lowered)) :
    Except Construct Expression :=
  match Template.parse template with
  | .error fault => .error (.malformedTemplate template fault)
  | .ok pieces => do
    let lowered ← arguments.mapM fun a => do return ⟨a.label, ← a.value.expression⟩
    match firstNeed (Argument.positionals lowered).length (lowered.filterMap (·.label)) 0 pieces with
    | some need => .error (.unfilledTemplate template need)
    | none => return .format template lowered

/-- A term that is text whatever its parts are, so that a plus sign beside it joins text. -/
def isTextual : Term → Bool
  | .text _ => true
  | .macroCall id _ => id == "format"
  | .call (.name id) _ => id == "str"
  | .call (.attribute (.text _) method) _ => method == "format"
  | _ => false

/-- The template of the parts of a sum, and the arguments that fill it. -/
def lowerParts : List Lowered → Except Construct (List Char × List (Argument Expression))
  | [] => .ok ([], [])
  | ⟨.text s, _⟩ :: parts => do
    let (template, arguments) ← lowerParts parts
    return ((Template.escape s).toList ++ template, arguments)
  | part :: parts => do
    let value ← part.expression
    let (template, arguments) ← lowerParts parts
    return ('{' :: '}' :: template, ⟨none, value⟩ :: arguments)

/-- A sum is text if one of its first two parts is. -/
def lowerSum (parts : List Lowered) : Except Construct Expression :=
  -- A sum associates to the left: the first two parts decide what its first sign joins, and text
  -- joined with anything is text.
  if (parts.take 2).any fun p => isTextual p.term then do
    let (template, arguments) ← lowerParts parts
    return .format (String.ofList template) arguments
  else .error (.operator "+")

/-! ## Accesses to the context -/

/-- The type that an argument names. -/
def typeArgument (primitive : Primitive) : Option Lowered → Except Construct (Option TypeTag)
  | none => .ok none
  | some ⟨.name t, _⟩ | some ⟨.text t, _⟩ =>
    match typeNamed? t with
    | some tag => .ok (some tag)
    | none => .error (.unknownType t)
  | some _ => .error (.typeNotName primitive.name)

/-- The type of a captured term that no one names. -/
def inferredType : Term → TypeTag
  | .bool _ => .bool
  | .int _ => .int
  | _ => .string

/-- An access to the context, after its key and its types are known. -/
def lowerAccess (primitive : Primitive) (arguments : List (Argument Lowered)) (key : String)
    (explicit : Option TypeTag) : Except Construct Expression :=
  match primitive with
  | .get implied => .ok (.get key ((implied.or explicit).getD .string))
  | .capture implied =>
    match Argument.slot? 1 "value" arguments with
    | none => .error (.withoutValue primitive.name)
    | some value => do
      let lowered ← value.expression
      return .capture key lowered ((implied.or explicit).getD (inferredType value.term))

/-- An access to the context. -/
def lowerPrimitive (formals : List String) (primitive : Primitive)
    (arguments : List (Argument Lowered)) : Except Construct Expression :=
  let positionals := Argument.positionals arguments
  if contextName ∉ formals then .error (.withoutContext primitive.name)
  else if primitive.arity < positionals.length then
    .error (.tooManyArguments primitive.name positionals.length)
  else
    match Argument.slot? 0 "key" arguments with
    | some ⟨.text key, _⟩ => do
      let explicit ← typeArgument primitive
        (Argument.slot? (primitive.arity - 1) "type" arguments)
      -- A type in the arguments may repeat the one that the name implies, but not change it.
      match primitive.implied?, explicit with
      | some implied, some named =>
        if implied = named then lowerAccess primitive arguments key explicit
        else .error (.conflictingType primitive.name named)
      | _, _ => lowerAccess primitive arguments key explicit
    | _ => .error (.keyNotText primitive.name)

/-! ## Calls, macros and tuples -/

/-- A call of a plain name. -/
def lowerFunction (formals : List String) (id : String) (arguments : List (Argument Lowered)) :
    Except Construct Expression :=
  if id = "str" then
    match arguments with
    | [⟨none, value⟩] => do
      return .format "\x7b\x7d" [⟨none, ← value.expression⟩]
    | _ => .error (.strArguments arguments.length)
  else
    match Primitive.ofName? id with
    | some primitive => lowerPrimitive formals primitive arguments
    | none => .error (.functionCall id)

/-- A call of a term. -/
def lowerCall (formals : List String) (function : Term) (arguments : List (Argument Lowered)) :
    Except Construct Expression :=
  match function with
  | .name id => lowerFunction formals id arguments
  | .attribute (.name base) method =>
    match Primitive.ofName? method with
    | some primitive =>
      if base = contextName then lowerPrimitive formals primitive arguments
      else .error (.methodCall method)
    | none => .error (.methodCall method)
  | .attribute (.text template) method =>
    if method = "format" then lowerFormat template arguments else .error (.methodCall method)
  | .attribute _ method => .error (.methodCall method)
  | _ => .error .computedCall

/-- A macro; only `format` with a literal template has a meaning. -/
def lowerMacro (id : String) (arguments : List (Argument Lowered)) : Except Construct Expression :=
  if id = "format" then
    match arguments with
    | ⟨none, ⟨.text template, _⟩⟩ :: rest => lowerFormat template rest
    | _ => .error .formatWithoutTemplate
  else .error (.macroCall id)

/-- A tuple; only a pair of a value and the context has a meaning, that of the value. -/
def lowerTuple (formals : List String) (items : List Lowered) : Except Construct Expression :=
  match items with
  | [value, ⟨.name id, _⟩] =>
    if id = contextName ∧ contextName ∈ formals then value.expression
    else .error (.tuple 2)
  | _ => .error (.tuple items.length)

/-! ## Terms -/

mutual

/-- The expression of a term under the formals of its rule. -/
def lower (formals : List String) : Term → Except Construct Expression
  | .text s => .ok (.literal (.text s))
  | .int n => .ok (.literal (.int n))
  | .bool b => .ok (.literal (.bool b))
  | .none => .ok (.literal .none)
  | .name id => lowerDotted formals (.name id)
  | .attribute base field => lowerDotted formals (.attribute base field)
  | .call function arguments => lowerCall formals function (lowerArguments formals arguments)
  | .macroCall id arguments => lowerMacro id (lowerArguments formals arguments)
  | .sum parts => lowerSum (lowerTerms formals parts)
  | .conditional thenBranch condition otherwise => do
    let condition ← lower formals condition
    let thenBranch ← lower formals thenBranch
    let otherwise ← lower formals otherwise
    return .conditional condition thenBranch otherwise
  | .tuple items => lowerTuple formals (lowerTerms formals items)

/-- Arguments with the expressions of their values. -/
def lowerArguments (formals : List String) : List (Argument Term) → List (Argument Lowered)
  | [] => []
  | ⟨label, value⟩ :: arguments =>
    ⟨label, ⟨value, lower formals value⟩⟩ :: lowerArguments formals arguments

/-- Terms with their expressions. -/
def lowerTerms (formals : List String) : List Term → List Lowered
  | [] => []
  | term :: terms => ⟨term, lower formals term⟩ :: lowerTerms formals terms

end

end Cookbook.Rule
