import Cookbook.Context.Slot
import Cookbook.Template
import Cookbook.Text.Lines

/-!
# Unsupported constructs

A rule may hold only what can be bound without running code. This module lists what else a rule's
author may have written, and words each case.
-/

namespace Cookbook

open Cookbook.Text

/-- The first line of a text in quotes, cut after 32 characters. -/
def excerpt (text : String) : String :=
  let line := firstLine text.toList
  if 32 < line.length then "'" ++ String.ofList (line.take 32) ++ "...'"
  else "'" ++ String.ofList line ++ "'"

/-- What a template lacks among its arguments. -/
inductive Need where
  /-- As many positional arguments. -/
  | positionals (count : Nat)
  /-- The positional argument at an index. -/
  | positional (index : Nat)
  /-- The argument of a name. -/
  | named (name : String)
  deriving DecidableEq, Repr

/-- The wording of a need. -/
def Need.message : Need → String
  | .positionals count => Number.decimal count ++ " positional arguments"
  | .positional index => "positional argument " ++ Number.decimal index
  | .named name => "argument '" ++ name ++ "'"

/-- A construct that no rule may hold. -/
inductive Construct where
  -- Text that the grammar of rules does not derive:
  | notLambda (found : String)
  | nestedLambda
  | comprehension
  | operator (symbol : String)
  | misplaced (word : String)
  | incomplete
  | subscript
  | braces
  | exclamation
  | path
  | unexpected (found : String)
  -- Terms of the grammar without a meaning:
  | macroCall (name : String)
  | formatWithoutTemplate
  | tuple (size : Nat)
  | computedAttribute
  | contextValue
  | contextField (path : List String)
  | unknownName (name : String)
  | strArguments (count : Nat)
  | functionCall (name : String)
  | methodCall (name : String)
  | computedCall
  | malformedTemplate (template : String) (fault : Template.Fault)
  | unfilledTemplate (template : String) (need : Need)
  -- Misused context primitives:
  | withoutContext (primitive : String)
  | tooManyArguments (primitive : String) (count : Nat)
  | keyNotText (primitive : String)
  | unknownType (name : String)
  | typeNotName (primitive : String)
  | conflictingType (primitive : String) (type : TypeTag)
  | withoutValue (primitive : String)
  deriving DecidableEq, Repr

/-- The wording of a construct. -/
def Construct.message : Construct → String
  | .notLambda found => "rule value must be a lambda, found " ++ excerpt found
  | .nestedLambda => "nested lambda"
  | .comprehension => "comprehension"
  | .operator symbol => "operator '" ++ symbol ++ "'"
  | .misplaced word => "misplaced '" ++ word ++ "'"
  | .incomplete => "incomplete expression"
  | .subscript => "list literal or subscript"
  | .braces => "dict or block literal"
  | .exclamation => "macro invocation"
  | .path => "path expression"
  | .unexpected found => excerpt found
  | .macroCall name => "macro '" ++ name ++ "!'"
  | .formatWithoutTemplate => "format! without a literal template"
  | .tuple size => "tuple of " ++ Number.decimal size ++ " elements"
  | .computedAttribute => "attribute access on a computed value"
  | .contextValue => "'context' used as a value"
  | .contextField fields => "field access 'context." ++ ".".intercalate fields ++ "'"
  | .unknownName name => "unknown name '" ++ name ++ "'"
  | .strArguments count => "str() with " ++ Number.decimal count ++ " arguments"
  | .functionCall name => "call to '" ++ name ++ "()'"
  | .methodCall name => "method call '." ++ name ++ "()'"
  | .computedCall => "call of a computed value"
  | .malformedTemplate template fault => "format template: " ++ fault.message template
  | .unfilledTemplate template need =>
    "format template \"" ++ template ++ "\" needs " ++ need.message
  | .withoutContext primitive => "'" ++ primitive ++ "' without a 'context' parameter"
  | .tooManyArguments primitive count =>
    "'" ++ primitive ++ "' with " ++ Number.decimal count ++ " arguments"
  | .keyNotText primitive => "'" ++ primitive ++ "' key must be a string literal"
  | .unknownType name => "unknown context type '" ++ name ++ "'"
  | .typeNotName primitive => "'" ++ primitive ++ "' type must be a name or string"
  | .conflictingType primitive type =>
    "'" ++ primitive ++ "' given conflicting type '" ++ type.name ++ "'"
  | .withoutValue primitive => "'" ++ primitive ++ "' without a value"

end Cookbook
