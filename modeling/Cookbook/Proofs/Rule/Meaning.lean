import Cookbook.Binding
import Cookbook.Rule.Lower

/-!
# What terms mean

A reference interpreter for the terms of rules. It goes by what the author wrote: there are no
templates for sums, no escaped braces and no numbered arguments in it, and nothing is compiled.

A term has a meaning if it is one of the constructs that rules may use. The meaning is what
evaluating the term does: it reads and writes the context, and gives a value or an error.

## Main definitions

* `Meaning.interpret`: the meaning of a term.
-/

namespace Cookbook

/-- What an evaluation does with the context. -/
abbrev Meaning (α : Type) := StateT Context (Except Error) α

namespace Meaning

open Cookbook.Rule

/-- A term with its meaning, if it has one. -/
structure Denoted where
  term : Term
  meaning : Option (Meaning Json)

/-! ## Fields, templates and sums -/

/-- A dotted name reads the ancestry. -/
def field (ancestry : Ancestry) (parameter : String) (term : Term) : Option (Meaning Json) :=
  match dotted? term with
  | some (base, path) => some (liftM (Binding.fieldOf ancestry parameter base path))
  | none => none

/-- Arguments are evaluated in order. -/
def values : List (Argument Denoted) → Option (Meaning (List (Argument Json)))
  | [] => some (pure [])
  | ⟨label, value⟩ :: arguments => do
    let first ← value.meaning
    let others ← values arguments
    return do return ⟨label, ← first⟩ :: (← others)

/-- A template is filled with the values of its arguments. -/
def format (template : String) (arguments : List (Argument Denoted)) : Option (Meaning Json) := do
  let values ← values arguments
  return do return .str (← Binding.render template (← values))

/-- The operands of a sum are evaluated from left to right and their text is joined: a text literal
is its characters, every other operand is turned into text. -/
def joined : List Denoted → Option (Meaning (List Char))
  | [] => some (pure [])
  | ⟨.text s, _⟩ :: parts => do
    let others ← joined parts
    return do return s.toList ++ (← others)
  | part :: parts => do
    let first ← part.meaning
    let others ← joined parts
    return do return (← first).stringify.toList ++ (← others)

/-- A sum is the joined text of its operands. -/
def sum (parts : List Denoted) : Option (Meaning Json) := do
  let text ← joined parts
  return do return .str (String.ofList (← text))

/-- `str` turns its only argument into text. -/
def str : List (Argument Denoted) → Option (Meaning Json)
  | [⟨none, value⟩] => do
    let value ← value.meaning
    return do return .str (← value).stringify
  | _ => none

/-! ## Accesses to the context -/

/-- The text of a literal. -/
def text? : Term → Option String
  | .text s => some s
  | _ => none

/-- The type that a term names. -/
def type? : Term → Option TypeTag
  | .name t | .text t => typeNamed? t
  | _ => none

/-- Reads a slot. -/
def read (key : String) (tag : TypeTag) : Meaning Json := do
  return (← Binding.readSlot key tag (← get)).toJson

/-- Writes the value of `value` to a slot, and gives it on. -/
def write (key : String) (tag : TypeTag) (value : Meaning Json) : Meaning Json := do
  let written ← value
  set (← Binding.captureSlot key tag written (← get))
  return written

/-- `get` and `capture` act on the slot that their first argument names. The type is the one in the
name of the primitive, or else the one that the last argument names, or else that of the literal
that is captured, or else text. -/
def access (primitive : Primitive) (arguments : List (Argument Denoted)) :
    Option (Meaning Json) := do
  let key ← text? (← Argument.slot? 0 "key" arguments).term
  match primitive with
  | .get implied =>
    let named := (Argument.slot? 1 "type" arguments).bind fun written => type? written.term
    return read key ((implied.or named).getD .string)
  | .capture implied =>
    let named := (Argument.slot? 2 "type" arguments).bind fun written => type? written.term
    let value ← Argument.slot? 1 "value" arguments
    return write key ((implied.or named).getD (inferredType value.term)) (← value.meaning)

/-! ## Calls, macros and tuples -/

/-- `str`, `format` on a text, and accesses to the context can be called. -/
def call (function : Term) (arguments : List (Argument Denoted)) : Option (Meaning Json) :=
  match function with
  | .name "str" => str arguments
  | .name id | .attribute (.name "context") id =>
    (Primitive.ofName? id).bind fun primitive => access primitive arguments
  | .attribute (.text template) "format" => format template arguments
  | _ => none

/-- The only macro is `format!`, and its first argument is the template. -/
def macroCall : String → List (Argument Denoted) → Option (Meaning Json)
  | "format", ⟨none, ⟨.text template, _⟩⟩ :: arguments => format template arguments
  | _, _ => none

/-- A pair of a value and the context is the value. -/
def tuple : List Denoted → Option (Meaning Json)
  | [value, ⟨.name "context", _⟩] => value.meaning
  | _ => none

/-! ## Terms -/

mutual

/-- The meaning of a term in the rule for `parameter`. -/
def interpret (ancestry : Ancestry) (parameter : String) : Term → Option (Meaning Json)
  | .text s => some (pure (.str s))
  | .int n => some (pure (.int n.toInt))
  | .bool b => some (pure (.bool b))
  | .none => some (pure .null)
  | .name id => field ancestry parameter (.name id)
  | .attribute base name => field ancestry parameter (.attribute base name)
  | .call function arguments => call function (interpretArguments ancestry parameter arguments)
  | .macroCall id arguments => macroCall id (interpretArguments ancestry parameter arguments)
  | .sum parts => sum (interpretTerms ancestry parameter parts)
  | .conditional thenBranch condition otherwise => do
    let condition ← interpret ancestry parameter condition
    let thenBranch ← interpret ancestry parameter thenBranch
    let otherwise ← interpret ancestry parameter otherwise
    return do if (← condition).truthy then thenBranch else otherwise
  | .tuple items => tuple (interpretTerms ancestry parameter items)

/-- Arguments with the meanings of their values. -/
def interpretArguments (ancestry : Ancestry) (parameter : String) :
    List (Argument Term) → List (Argument Denoted)
  | [] => []
  | ⟨label, value⟩ :: arguments =>
    ⟨label, ⟨value, interpret ancestry parameter value⟩⟩ ::
      interpretArguments ancestry parameter arguments

/-- Terms with their meanings. -/
def interpretTerms (ancestry : Ancestry) (parameter : String) : List Term → List Denoted
  | [] => []
  | term :: terms =>
    ⟨term, interpret ancestry parameter term⟩ :: interpretTerms ancestry parameter terms

end

end Meaning

end Cookbook
