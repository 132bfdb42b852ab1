import Cookbook.Files.ReadFailure
import Cookbook.Rule.Construct
import Cookbook.Text.Quoted

/-!
# Errors

Everything that can go wrong between the text of an artifact and a bound argument. A constructor
says what happened; the wording is in the `message` functions.

## Main definitions

* `Malformation`: why the text of an artifact is not that of a recipe.
* `Ambiguity`: why the recipe of a native artifact cannot be told.
* `Error`: all errors; those of compilation and those of binding are told apart by
  `Error.isCompileError` and `Error.isBindError`.
-/

namespace Cookbook

open Cookbook.Text

/-! ## Malformed artifacts -/

/-- What was expected at a place of the argument map. -/
inductive MapPart where
  | opening
  | key
  | colon
  | value
  | separator
  | ending
  deriving DecidableEq, Repr

/-- The wording of an expectation. -/
def MapPart.message : MapPart → String
  | .opening => "args must be a dict literal"
  | .key => "args key must be a string literal"
  | .colon => "':' after args key"
  | .value => "balanced brackets and quotes in args value"
  | .separator => "',' or '\x7d' after args entry"
  | .ending => "end of args after '\x7d'"

/-- What is wrong with the signature of a payload function. -/
inductive SignatureFault where
  | noParameters
  | unclosed
  | noColon
  deriving DecidableEq, Repr

/-- The wording of a signature's fault. -/
def SignatureFault.message : SignatureFault → String
  | .noParameters => "has no parameter list"
  | .unclosed => "parameter list is never closed"
  | .noColon => "has no ':'"

/-- Why the text of an artifact is not that of a recipe. -/
inductive Malformation where
  /-- The artifact does not start with its marker; `found` is what stands there instead. -/
  | noOpeningMarker (marker found : String)
  | noClosingMarker (opening closing : String)
  | noCall
  | callWithoutArguments (name : String)
  | unclosedCall (name : String)
  | unsplittableArguments (name : String)
  | duplicateArgument (name : String)
  | entrypointNotText (found : String)
  | preambleNotText
  | requirementsNotTexts (keyword : String)
  | tooFewArguments (found : Nat)
  | notConstraints (found : String)
  /-- The argument map `text` has something else where `expected` should stand. -/
  | malformedMap (expected : MapPart) (text : String)
  | malformedSignature (fault : SignatureFault)
  deriving DecidableEq, Repr

/-- The wording of a malformation. -/
def Malformation.message : Malformation → String
  | .noOpeningMarker marker found =>
    "artifact must start with '" ++ marker ++ "', found '" ++
      String.ofList (quote found.toList) ++ "'"
  | .noClosingMarker opening closing =>
    "header opened with '" ++ opening ++ "' is never closed with '" ++ closing ++ "'"
  | .noCall => "header has no registration call ('@name(...)')"
  | .callWithoutArguments name => "'@" ++ name ++ "' is not followed by '('"
  | .unclosedCall name => "registration call '@" ++ name ++ "(' is never closed"
  | .unsplittableArguments name => "cannot split the arguments of '@" ++ name ++ "(...)'"
  | .duplicateArgument name => "duplicate argument '" ++ name ++ "'"
  | .entrypointNotText found => "entrypoint must be a string literal, found '" ++ found ++ "'"
  | .preambleNotText => "preamble must be a string literal"
  | .requirementsNotTexts keyword => keyword ++ " must be a list of string literals"
  | .tooFewArguments found =>
    "registration call needs a registry handle and a constraint, found " ++
      Number.decimal found ++ " positional argument(s)"
  | .notConstraints found => "'" ++ found ++ "' is not a constraint name or list of names"
  | .malformedMap expected text => "expected " ++ expected.message ++ " in args '" ++ text ++ "'"
  | .malformedSignature fault => "payload signature " ++ fault.message

/-! ## Ambiguous artifacts -/

/-- Why the recipe of a native artifact cannot be told. -/
inductive Ambiguity where
  /-- Not exactly one decorator line and one payload line; the lists give where they stand. -/
  | introducers (decorator payload : String) (decoratorLines payloadLines : List Nat)
  /-- The decorator stands after the payload. -/
  | order (payload : String) (decoratorLine payloadLine : Nat)
  deriving DecidableEq, Repr

/-- Line numbers in brackets. -/
def lineList (lines : List Nat) : String :=
  "[" ++ ", ".intercalate (lines.map Number.decimal) ++ "]"

/-- The wording of an ambiguity. -/
def Ambiguity.message : Ambiguity → String
  | .introducers decorator payload decoratorLines payloadLines =>
    "expected exactly one '@" ++ decorator ++ "(' line and one 'def " ++ payload ++
      "(' line, found " ++ Number.decimal decoratorLines.length ++ " at lines " ++
      lineList decoratorLines ++ " and " ++ Number.decimal payloadLines.length ++ " at lines " ++
      lineList payloadLines
  | .order payload decoratorLine payloadLine =>
    "annotation at line " ++ Number.decimal decoratorLine ++ " must precede 'def " ++ payload ++
      "' at line " ++ Number.decimal payloadLine

/-! ## All errors -/

/-- Everything that can go wrong. -/
inductive Error where
  -- Compiling an artifact:
  | malformed (line : Nat) (what : Malformation)
  | ambiguous (what : Ambiguity)
  | emptyBody
  | unsupported (parameter : String) (construct : Construct) (line : Nat)
  -- Binding arguments:
  | unboundKey (key : String)
  | typeMismatch (key : String) (expected : TypeTag) (found : String)
  | missingAncestor (parameter name : String)
  | missingField (parameter base : String) (path : List String)
  -- Rendering a template that no compiler has checked:
  | malformedTemplate (template : String) (fault : Template.Fault)
  | unfilledPlaceholder (template : String) (placeholder : Placeholder)
  -- Assembling and checking a registry:
  | inArtifact (source : String) (cause : Error)
  | invalidRegistry (problems : List String)
  | unreadable (failure : ReadFailure)
  | notJson
  | unknownDialect (name : String)
  deriving DecidableEq, Repr

/-- A placeholder as messages name it. -/
def Placeholder.label : Placeholder → String
  | .next => "Next"
  | .index position => "Index(" ++ Number.decimal position ++ ")"
  | .named name => "Named(\"" ++ name ++ "\")"

namespace Error

/-- The wording of an error. -/
def message : Error → String
  | .malformed line what =>
    "Malformed artifact at line " ++ Number.decimal line ++ ": " ++ what.message
  | .ambiguous what => "Ambiguous recipe: " ++ what.message
  | .emptyBody => "Recipe body is empty"
  | .unsupported parameter construct line =>
    "Unsupported expression for argument '" ++ parameter ++ "' at line " ++
      Number.decimal line ++ ": " ++ construct.message
  | .unboundKey key => "Context key '" ++ key ++ "' read before it was captured"
  | .typeMismatch key expected found =>
    "Context key '" ++ key ++ "' holds " ++ found ++ ", expected " ++ expected.name
  | .missingAncestor parameter name =>
    "Argument '" ++ parameter ++ "' needs ancestor '" ++ name ++
      "', which is not in the ancestry graph"
  | .missingField parameter base path =>
    "Argument '" ++ parameter ++ "': field '" ++ ".".intercalate path ++ "' not found on '" ++
      base ++ "'"
  | .malformedTemplate template fault => fault.message template
  | .unfilledPlaceholder template placeholder =>
    "template \"" ++ template ++ "\" has no value for placeholder " ++ placeholder.label
  | .inArtifact source cause =>
    "Failed to register artifact '" ++ source ++ "': " ++ cause.message
  | .invalidRegistry problems => "Registry validation failed: " ++ "; ".intercalate problems
  | .unreadable failure => "IO error: " ++ failure.message
  | .notJson => "JSON error: the data does not have the expected shape"
  | .unknownDialect name => "unknown dialect '" ++ name ++ "'"

/-- An error of turning the text of an artifact into recipes. -/
def isCompileError : Error → Bool
  | .malformed .. | .ambiguous _ | .emptyBody | .unsupported .. => true
  | _ => false

/-- An error of binding the arguments of one recipe. -/
def isBindError : Error → Bool
  | .unboundKey _ | .typeMismatch .. | .missingAncestor .. | .missingField .. => true
  | _ => false

end Error

end Cookbook
