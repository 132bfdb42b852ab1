import Cookbook.Json.Basic

/-!
# Writing structured data

Two layouts: `render` puts everything on one line without spaces, `pretty` puts each item on a line
of its own, indented by two spaces a level. Fields are written in the order in which the object
lists them.
-/

namespace Cookbook.Json

/-- The lower-case hexadecimal digit of a number below sixteen. -/
def hexDigit (n : Nat) : Char :=
  if n < 10 then Char.ofNat ('0'.toNat + n) else Char.ofNat ('a'.toNat + (n - 10))

/-- Quotes, backslashes and control characters are escaped; everything else stands as it is. -/
def escapeChar (c : Char) : List Char :=
  if c = '"' then ['\\', '"']
  else if c = '\\' then ['\\', '\\']
  else if c = '\x08' then ['\\', 'b']
  else if c = '\x0c' then ['\\', 'f']
  else if c = '\n' then ['\\', 'n']
  else if c = '\r' then ['\\', 'r']
  else if c = '\t' then ['\\', 't']
  else if c.toNat < 0x20 then
    ['\\', 'u', '0', '0', hexDigit (c.toNat / 16), hexDigit (c.toNat % 16)]
  else [c]

/-- Text in quotes. -/
def renderString (s : String) : String :=
  "\"" ++ String.ofList (s.toList.flatMap escapeChar) ++ "\""

/-- A value that holds no other value. -/
def renderScalar : Json → String
  | null => "null"
  | bool true => "true"
  | bool false => "false"
  | number n => n.render
  | str s => renderString s
  | arr _ | obj _ => ""

/-! ## On one line -/

mutual

/-- The value on one line. -/
def render : Json → String
  | arr [] => "[]"
  | arr (item :: items) => "[" ++ render item ++ renderItems items ++ "]"
  | obj [] => "\x7b\x7d"
  | obj ((name, value) :: fields) =>
    "\x7b" ++ renderString name ++ ":" ++ render value ++ renderFields fields ++ "\x7d"
  | value => renderScalar value

/-- Further items, each after a comma. -/
def renderItems : List Json → String
  | [] => ""
  | item :: items => "," ++ render item ++ renderItems items

/-- Further fields, each after a comma. -/
def renderFields : List (String × Json) → String
  | [] => ""
  | (name, value) :: fields =>
    "," ++ renderString name ++ ":" ++ render value ++ renderFields fields

end

/-! ## Indented -/

/-- A line break and the indent of a level. -/
def newLine (level : Nat) : String :=
  "\n" ++ String.ofList (List.replicate (2 * level) ' ')

mutual

/-- The value with its items indented from `level` on. -/
def prettyAt (level : Nat) : Json → String
  | arr [] => "[]"
  | arr (item :: items) =>
    "[" ++ newLine (level + 1) ++ prettyAt (level + 1) item ++
      prettyItems (level + 1) items ++ newLine level ++ "]"
  | obj [] => "\x7b\x7d"
  | obj ((name, value) :: fields) =>
    "\x7b" ++ newLine (level + 1) ++ renderString name ++ ": " ++ prettyAt (level + 1) value ++
      prettyFields (level + 1) fields ++ newLine level ++ "\x7d"
  | value => renderScalar value

/-- Further items, each after a comma and on a line of its own. -/
def prettyItems (level : Nat) : List Json → String
  | [] => ""
  | item :: items => "," ++ newLine level ++ prettyAt level item ++ prettyItems level items

/-- Further fields, each after a comma and on a line of its own. -/
def prettyFields (level : Nat) : List (String × Json) → String
  | [] => ""
  | (name, value) :: fields =>
    "," ++ newLine level ++ renderString name ++ ": " ++ prettyAt level value ++
      prettyFields level fields

end

/-- The value over several lines. -/
def pretty (value : Json) : String :=
  prettyAt 0 value

/-- The text of a value inside other text: a text as it is, no value as `None`, everything else on
one line. -/
def stringify : Json → String
  | str s => s
  | null => "None"
  | value => render value

end Cookbook.Json
