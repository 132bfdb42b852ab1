import Cookbook.Context
import Cookbook.Error
import Cookbook.Json.Printer
import Cookbook.Recipe

/-!
# Binding arguments

The rules of a recipe are evaluated in order of declaration against the data of its ancestors and
one context, which each rule may read and write.

## Main definitions

* `Binding.eval`: the value of an expression, and the context after it.
* `Recipe.bind`: the arguments of a recipe, and the context that its pass leaves.
-/

namespace Cookbook

/-- The data of each ancestor. -/
abbrev Ancestry := OrderedMap Json

/-- The outcome of a pass: the arguments in order of declaration, and the slots at its end. -/
structure Binding where
  arguments : OrderedMap Json
  context : Context

namespace Binding

/-! ## Fields -/

/-- The value that a path leads to from a value; `passed` are the fields that led there. -/
def follow (parameter base : String) (passed : List String) (value : Json) :
    List String → Except Error Json
  | [] => .ok value
  | field :: path =>
    match value.field? field with
    | some next => follow parameter base (passed ++ [field]) next path
    | none => .error (.missingField parameter base (passed ++ [field]))

/-- A field of an ancestor. -/
def fieldOf (ancestry : Ancestry) (parameter base : String) (path : List String) :
    Except Error Json :=
  match ancestry.get? base with
  | some value => follow parameter base [] value path
  | none => .error (.missingAncestor parameter base)

/-! ## Templates -/

/-- The value that fills a placeholder, `next` positional ones having been used by empty
placeholders before it. -/
def filling? (values : List (Argument Json)) (next : Nat) : Placeholder → Option Json
  | .next => (Argument.positionals values)[next]?
  | .index position => (Argument.positionals values)[position]?
  | .named name => Argument.lastLabelled? name values

/-- The text of pieces with their placeholders filled, or the first one that cannot be. -/
def fill (values : List (Argument Json)) (next : Nat) :
    List Piece → Except Placeholder (List Char)
  | [] => .ok []
  | .text s :: pieces =>
    match fill values next pieces with
    | .ok text => .ok (s.toList ++ text)
    | .error hole => .error hole
  | .hole hole :: pieces =>
    match filling? values next hole with
    | none => .error hole
    | some value =>
      -- Only an empty placeholder uses up a positional argument.
      match fill values (if hole = .next then next + 1 else next) pieces with
      | .ok text => .ok (value.stringify.toList ++ text)
      | .error hole => .error hole

/-- A template filled with values. -/
def render (template : String) (values : List (Argument Json)) : Except Error String :=
  match Template.parse template with
  | .error fault => .error (.malformedTemplate template fault)
  | .ok pieces =>
    match fill values 0 pieces with
    | .ok text => .ok (String.ofList text)
    | .error hole => .error (.unfilledPlaceholder template hole)

/-! ## Expressions -/

/-- Writes a value to the context at a type. -/
def captureSlot (key : String) (tag : TypeTag) (value : Json) (context : Context) :
    Except Error Context :=
  match Slot.ofJson? tag value with
  | some slot => .ok (context.capture key slot)
  | none => .error (.typeMismatch key tag value.typeName)

/-- Reads a value from the context at a type. -/
def readSlot (key : String) (tag : TypeTag) (context : Context) : Except Error Slot :=
  match context.get key tag with
  | .ok slot => .ok slot
  | .error .unbound => .error (.unboundKey key)
  | .error (.mismatch found) => .error (.typeMismatch key tag found.name)

mutual

/-- The value of an expression of the rule for `parameter`, and the context after it. -/
def eval (ancestry : Ancestry) (parameter : String) :
    Expression → Context → Except Error (Json × Context)
  | .field base path, context => do
    let value ← fieldOf ancestry parameter base path
    return (value, context)
  | .literal value, context => .ok (value.toJson, context)
  | .format template arguments, context => do
    let (values, context) ← evalArguments ancestry parameter arguments context
    let text ← render template values
    return (.str text, context)
  | .capture key value tag, context => do
    let (value, context) ← eval ancestry parameter value context
    -- The value may have written to the context itself; this write comes after those.
    let context ← captureSlot key tag value context
    return (value, context)
  | .get key tag, context => do
    let slot ← readSlot key tag context
    return (slot.toJson, context)
  | .conditional condition thenBranch otherwise, context => do
    let (test, context) ← eval ancestry parameter condition context
    if test.truthy then eval ancestry parameter thenBranch context
    else eval ancestry parameter otherwise context

/-- The values of arguments, evaluated in order. -/
def evalArguments (ancestry : Ancestry) (parameter : String) :
    List (Argument Expression) → Context → Except Error (List (Argument Json) × Context)
  | [], context => .ok ([], context)
  | ⟨label, value⟩ :: arguments, context => do
    let (value, context) ← eval ancestry parameter value context
    let (values, context) ← evalArguments ancestry parameter arguments context
    return (⟨label, value⟩ :: values, context)

end

/-! ## Rules -/

/-- The first ancestor that a rule declares and that is missing. -/
def missing? (ancestry : Ancestry) (rule : Rule) : Option String :=
  rule.dependencies.find? fun name => name != contextName && !ancestry.contains name

/-- The value of a rule, and the context after it. All ancestors that it declares have to be there,
whether they are read or not. -/
def evalRule (ancestry : Ancestry) (rule : Rule) (context : Context) :
    Except Error (Json × Context) :=
  match missing? ancestry rule with
  | some name => .error (.missingAncestor rule.parameter name)
  | none => eval ancestry rule.parameter rule.expression context

/-- Evaluates rules in order and adds their values to the arguments so far. -/
def evalRules (ancestry : Ancestry) : List Rule → Binding → Except Error Binding
  | [], binding => .ok binding
  | rule :: rules, binding => do
    let (value, context) ← evalRule ancestry rule binding.context
    -- A parameter that was declared before keeps its place and takes the new value.
    evalRules ancestry rules ⟨binding.arguments.insert rule.parameter value, context⟩

end Binding

/-- The arguments of a recipe and the context that its pass leaves, starting from the slots of
`seed`. -/
def Recipe.bind (recipe : Recipe) (ancestry : Ancestry) (seed : Context) : Except Error Binding :=
  Binding.evalRules ancestry recipe.rules ⟨.empty, seed⟩

/-- The arguments of a recipe, bound with an empty context. -/
def Recipe.arguments (recipe : Recipe) (ancestry : Ancestry) : Except Error (OrderedMap Json) := do
  let binding ← recipe.bind ancestry .empty
  return binding.arguments

end Cookbook
