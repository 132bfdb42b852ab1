import Cookbook.Registration.Items
import Cookbook.Text.Lines

/-!
# Registration calls

A header registers its recipe by a call `@name(handle, Constraint, key=value, ...)`. The first
positional argument is a handle that does not matter here, the second one names the constraint, or
lists the constraints, that the recipe meets. Labelled arguments set everything else.

## Main definitions

* `Call.find`: the first call of a header.
* `Registration.parse`: what that call declares.
-/

namespace Cookbook

open Cookbook.Text

/-! ## Finding the call -/

/-- Where a call stands in a header. -/
structure Call where
  name : String
  /-- The offset of the at sign. -/
  start : Nat
  /-- The offset of the opening parenthesis. -/
  openAt : Nat
  /-- The offset of the closing parenthesis. -/
  closeAt : Nat
  deriving DecidableEq, Repr

namespace Call

/-- Whether a text starts with an at sign, a name and an opening parenthesis. -/
def startsCall : List Char → Bool
  | '@' :: rest =>
    !(rest.takeWhile isIdentChar).isEmpty &&
      (trimStart (rest.dropWhile isIdentChar)).head? == some '('
  | _ => false

/-- The offset of the first call that starts a line. -/
def start? (header : List Char) : Option Nat :=
  (locate 0 (fullLines header)).findSome? fun (offset, line) =>
    let trimmed := trimStart line
    if startsCall trimmed then some (offset + offsetOf line trimmed) else none

/-- The first call of a header, or the offset and the kind of the malformation. -/
def find (header : List Char) : Except (Nat × Malformation) Call :=
  match start? header with
  | none => .error (0, .noCall)
  | some start =>
    let written := dropBytes (start + 1) header
    let id := written.takeWhile isIdentChar
    let name := String.ofList id
    match breakOn? ['('] (written.dropWhile isIdentChar) with
    | none => .error (start, .callWithoutArguments name)
    | some (before, _) =>
      let openAt := start + 1 + byteSize id + byteSize before
      match matchingClose? (dropBytes openAt header) with
      | none => .error (start, .unclosedCall name)
      | some length => .ok ⟨name, start, openAt, openAt + length⟩

/-- The text between the parentheses. -/
def inner (call : Call) (header : List Char) : List Char :=
  sliceBytes (call.openAt + 1) call.closeAt header

/-- The arguments of a call, located in the header. -/
def arguments (call : Call) (header : List Char) :
    Except (Nat × Malformation) (List (Argument Segment)) :=
  match splitArguments (call.inner header) with
  | .error offset => .error (call.openAt + 1 + offset, .unsplittableArguments call.name)
  | .ok found =>
    .ok (found.map fun a => ⟨a.label, ⟨call.openAt + 1 + a.value.offset, a.value.text⟩⟩)

end Call

/-! ## Lists of names and of texts -/

/-- What stands between square brackets. -/
def bracketed? : List Char → Option (List Char)
  | '[' :: rest => if rest.getLast? = some ']' then some rest.dropLast else none
  | _ => none

/-- The items of a list of unlabelled values, each read by `item`. -/
def listItems? {α : Type} (item : List Char → Option α) (inner : List Char) : Option (List α) :=
  match splitArguments inner with
  | .error _ => none
  | .ok found => found.mapM fun a => if a.isPositional then item a.value.text else none

/-- A name, plain or as a literal. -/
def constraintName? (text : List Char) : Option String :=
  let trimmed := trim text
  if isIdentifier trimmed then some (String.ofList trimmed)
  else
    match literalValue? trimmed with
    | some value => if isIdentifier value then some (String.ofList value) else none
    | none => none

/-- One name, or a list of at least one in square brackets. -/
def constraintNames? (text : List Char) : Option (List String) :=
  match bracketed? text with
  | some inner =>
    match listItems? constraintName? inner with
    | some (name :: names) => some (name :: names)
    | _ => none
  | none => (constraintName? text).map fun name => [name]

/-- Literals in square brackets. -/
def literalList? (text : List Char) : Option (List String) :=
  match bracketed? text with
  | some inner => listItems? (fun item => (literalValue? item).map String.ofList) inner
  | none => none

/-! ## Labelled arguments -/

/-- What the labelled arguments of a call set. -/
structure Settings where
  /-- The argument map, unread. -/
  args : Option Segment
  entrypoint : Option String
  preamble : Option String
  requirements : List String
  deriving DecidableEq, Repr

namespace Settings

/-- Nothing is set. -/
def none : Settings := ⟨.none, .none, .none, []⟩

/-- Sets what a label names; labels without a meaning are ignored. -/
def set (settings : Settings) (label : String) (value : Segment) :
    Except Malformation Settings :=
  match label with
  -- The map is read when the rules are compiled, so its faults are found after those of the body.
  | "args" => .ok { settings with args := some value }
  | "entrypoint" =>
    match literalValue? value.text with
    | some text => .ok { settings with entrypoint := some (String.ofList text) }
    | .none => .error (.entrypointNotText (String.ofList value.text))
  | "preamble" =>
    match literalValue? value.text with
    | some text => .ok { settings with preamble := some (String.ofList text) }
    | .none => .error .preambleNotText
  | "pip_requirements" | "requirements" =>
    match literalList? value.text with
    | some texts => .ok { settings with requirements := texts }
    | .none => .error (.requirementsNotTexts label)
  | _ => .ok settings

/-- Reads labelled arguments in order; `seen` lists the labels that have been used. -/
def read (seen : List String) (settings : Settings) :
    List (Argument Segment) → Except (Nat × Malformation) Settings
  | [] => .ok settings
  | ⟨.none, _⟩ :: rest => read seen settings rest
  | ⟨some label, value⟩ :: rest =>
    -- Labels are compared as written, so two spellings of one setting are not duplicates.
    if label ∈ seen then .error (value.offset, .duplicateArgument label)
    else
      match settings.set label value with
      | .ok settings => read (label :: seen) settings rest
      | .error what => .error (value.offset, what)

end Settings

/-! ## Registrations -/

/-- What a registration call declares. -/
structure Registration where
  /-- The name of the call. -/
  name : String
  /-- The constraints that the recipe meets, in order of declaration. -/
  constraints : List String
  settings : Settings
  /-- The offset of the at sign. -/
  start : Nat
  /-- The offset just past the closing parenthesis. -/
  stop : Nat
  deriving DecidableEq, Repr

namespace Registration

/-- What the first call of a header declares, or where and how the header is malformed. -/
def find (header : List Char) : Except (Nat × Malformation) Registration := do
  let call ← Call.find header
  let arguments ← call.arguments header
  let settings ← Settings.none.read [] arguments
  -- The labelled arguments come first, so their faults hide those of the constraint; further
  -- positional ones are not looked at.
  match Argument.positionals arguments with
  | _ :: target :: _ =>
    match constraintNames? target.text with
    | some constraints => return ⟨call.name, constraints, settings, call.start, call.closeAt + 1⟩
    | none => .error (target.offset, .notConstraints (String.ofList target.text))
  | positionals => .error (call.start, .tooFewArguments positionals.length)

/-- What the first call of a header declares. `lineOf` tells the line of a byte offset into the
header. -/
def parse (lineOf : Nat → Nat) (header : List Char) : Except Error Registration :=
  match find header with
  | .ok registration => .ok registration
  | .error (offset, what) => .error (.malformed (lineOf offset) what)

end Registration

end Cookbook
