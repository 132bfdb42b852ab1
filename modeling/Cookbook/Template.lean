import Cookbook.Text.Blank
import Cookbook.Text.Identifier

/-!
# Format templates

A template is text with placeholders: `{}` stands for the next positional argument, a number in
braces for the positional argument at that index, a name in braces for the argument of that name. A
brace of the text is written twice.

## Main definitions

* `Template.parse`: the pieces of a template, or what is wrong with it.
* `Template.escape`: the template text that stands for a plain text.
-/

namespace Cookbook

open Cookbook.Text

/-- A gap of a template, to be filled from the arguments. -/
inductive Placeholder where
  /-- The next positional argument. -/
  | next
  /-- The positional argument at an index, counted from zero. -/
  | index (position : Nat)
  /-- The argument of a name. -/
  | named (name : String)
  deriving DecidableEq, Repr

/-- A part of a template. -/
inductive Piece where
  | text (content : String)
  | hole (placeholder : Placeholder)
  deriving DecidableEq, Repr

namespace Template

/-- What makes a text no template. -/
inductive Fault where
  /-- A closing brace that closes nothing. -/
  | strayBrace
  /-- An opening brace that is never closed. -/
  | unclosedBrace
  /-- A placeholder that is neither empty nor a number nor a name. -/
  | formatSpec (field : String)
  deriving DecidableEq, Repr

/-- The wording of a fault of the given template. -/
def Fault.message (template : String) : Fault → String
  | .strayBrace => "single '\x7d' in template \"" ++ template ++ "\""
  | .unclosedBrace => "unclosed '\x7b' in template \"" ++ template ++ "\""
  | .formatSpec field => "format spec in placeholder '\x7b" ++ field ++ "\x7d'"

/-! ## Placeholders -/

/-- The value of a text of decimal digits. -/
def digitsValue (digits : List Char) : Nat :=
  digits.foldl (fun n d => n * 10 + (d.toNat - '0'.toNat)) 0

/-- An index: decimal digits, with a plus sign in front or not, below `2 ^ 64`. -/
def index? (field : List Char) : Option Nat :=
  let digits :=
    match field with
    | '+' :: rest => rest
    | other => other
  if digits.isEmpty || !digits.all Char.isDigit then none
  else
    -- The bound is that of a 64-bit offset: past it the digits are no index, and no name either.
    let value := digitsValue digits
    if value < Nat.pow 2 64 then some value else none

/-- The placeholder between two braces; blanks around it do not count. -/
def placeholder (written : List Char) : Except Fault Placeholder :=
  let field := trim written
  if field.isEmpty then .ok .next
  else
    match index? field with
    | some position => .ok (.index position)
    | none =>
      if isIdentifier field then .ok (.named (String.ofList field))
      else .error (.formatSpec (String.ofList field))

/-! ## Pieces -/

/-- Puts a character in front of pieces, into their first text if they start with one. -/
def consChar (c : Char) : List Piece → List Piece
  | .text s :: pieces => .text (String.singleton c ++ s) :: pieces
  | pieces => .text (String.singleton c) :: pieces

/-- The pieces of a template's characters. `field` holds what was read of a placeholder that is
still open, last character first. -/
def pieces (field : Option (List Char)) : List Char → Except Fault (List Piece)
  | [] =>
    match field with
    | none => .ok []
    | some _ => .error .unclosedBrace
  | c :: rest =>
    match field with
    | some written =>
      if c = '}' then do
        let hole ← placeholder written.reverse
        return .hole hole :: (← pieces none rest)
      else pieces (some (c :: written)) rest
    | none =>
      match c, rest with
      | '{', '{' :: rest => consChar '{' <$> pieces none rest
      | '}', '}' :: rest => consChar '}' <$> pieces none rest
      | '{', rest => pieces (some []) rest
      | '}', _ => .error .strayBrace
      | c, rest => consChar c <$> pieces none rest

/-- The pieces of a template. -/
def parse (template : String) : Except Fault (List Piece) :=
  pieces none template.toList

/-- A character as template text: braces are written twice. -/
def escapeChar (c : Char) : List Char :=
  if c = '{' ∨ c = '}' then [c, c] else [c]

/-- The template that stands for a plain text. -/
def escape (text : String) : String :=
  String.ofList (text.toList.flatMap escapeChar)

end Template

end Cookbook
