import Cookbook.Json.Basic

/-!
# Reading structured data

A strict reader of the data format. Containers may be nested `maxDepth` deep; a text may hold one
value with white space around it and nothing else.

A reader takes the text from a position on and returns a value with what follows it.
-/

namespace Cookbook.Json

/-- Takes a value from the start of a text. -/
abbrev Reader (α : Type) := List Char → Option (α × List Char)

/-- How many containers may stand inside one another. -/
def maxDepth : Nat := 127

/-- The text without leading white space. -/
def skipSpace (input : List Char) : List Char :=
  input.dropWhile fun c => c == ' ' || c == '\n' || c == '\t' || c == '\r'

/-- The value of a hexadecimal digit. -/
def hexDigit? (c : Char) : Option Nat :=
  if c.isDigit then some (c.toNat - '0'.toNat)
  else if 'a' ≤ c ∧ c ≤ 'f' then some (c.toNat - 'a'.toNat + 10)
  else if 'A' ≤ c ∧ c ≤ 'F' then some (c.toNat - 'A'.toNat + 10)
  else none

/-- The value of four hexadecimal digits. -/
def hexUnit? (a b c d : Char) : Option Nat := do
  return (((← hexDigit? a) * 16 + (← hexDigit? b)) * 16 + (← hexDigit? c)) * 16 + (← hexDigit? d)

/-- The character that a letter after a backslash stands for. -/
def unescape? : Char → Option Char
  | '"' => some '"'
  | '\\' => some '\\'
  | '/' => some '/'
  | 'b' => some '\x08'
  | 'f' => some '\x0c'
  | 'n' => some '\n'
  | 'r' => some '\r'
  | 't' => some '\t'
  | _ => none

/-- Puts a character in front of a text that was read. -/
def prepend (c : Char) : Option (List Char × List Char) → Option (List Char × List Char)
  | some (text, rest) => some (c :: text, rest)
  | none => none

/-- The text up to the closing quote. `high` is the first unit of a surrogate pair that has to be
completed next; a unit without its partner is refused, and so are control characters. -/
def readText (high : Option Nat) : List Char → Option (List Char × List Char)
  | [] => none
  | '\\' :: 'u' :: a :: b :: c :: d :: rest =>
    match hexUnit? a b c d, high with
    | none, _ => none
    | some unit, some first =>
      if 0xDC00 ≤ unit ∧ unit ≤ 0xDFFF then
        prepend (Char.ofNat (0x10000 + (first - 0xD800) * 0x400 + (unit - 0xDC00)))
          (readText none rest)
      else none
    | some unit, none =>
      if 0xD800 ≤ unit ∧ unit ≤ 0xDBFF then readText (some unit) rest
      else if 0xDC00 ≤ unit ∧ unit ≤ 0xDFFF then none
      else prepend (Char.ofNat unit) (readText none rest)
  | '\\' :: c :: rest =>
    if high.isSome then none
    else
      match unescape? c with
      | some plain => prepend plain (readText none rest)
      | none => none
  | c :: rest =>
    if high.isSome then none
    else if c = '"' then some ([], rest)
    else if c = '\\' ∨ c.toNat < 0x20 then none
    else prepend c (readText none rest)

/-- Text in quotes. -/
def readString : Reader String
  | '"' :: rest => (readText none rest).map fun (text, rest) => (String.ofList text, rest)
  | _ => none

/-- The items of a list from one item on, up to the closing bracket. -/
def readItems (item : Reader Json) : Nat → Reader (List Json)
  | 0, _ => none
  | fuel + 1, input => do
    let (value, rest) ← item input
    match skipSpace rest with
    | ',' :: rest =>
      let (values, rest) ← readItems item fuel rest
      return (value :: values, rest)
    | ']' :: rest => return ([value], rest)
    | _ => none

/-- The fields of an object from one field on, up to the closing brace. -/
def readFields (item : Reader Json) : Nat → Reader (List (String × Json))
  | 0, _ => none
  | fuel + 1, input => do
    let (name, rest) ← readString (skipSpace input)
    match skipSpace rest with
    | ':' :: rest =>
      let (value, rest) ← item rest
      match skipSpace rest with
      | ',' :: rest =>
        let (fields, rest) ← readFields item fuel rest
        return ((name, value) :: fields, rest)
      | '}' :: rest => return ([(name, value)], rest)
      | _ => none
    | _ => none

/-- A list or an object, given a reader of what it holds. -/
def readContainer (item : Reader Json) : Reader Json
  | '[' :: rest =>
    match skipSpace rest with
    | ']' :: rest => some (arr [], rest)
    | rest => (readItems item (rest.length + 1) rest).map fun (items, rest) => (arr items, rest)
  | '{' :: rest =>
    match skipSpace rest with
    | '}' :: rest => some (obj [], rest)
    | rest => (readFields item (rest.length + 1) rest).map fun (fields, rest) => (obj fields, rest)
  | _ => none

/-- A value, given a reader of lists and objects. -/
def readWith (container : Reader Json) (input : List Char) : Option (Json × List Char) :=
  match skipSpace input with
  | 'n' :: 'u' :: 'l' :: 'l' :: rest => some (null, rest)
  | 't' :: 'r' :: 'u' :: 'e' :: rest => some (bool true, rest)
  | 'f' :: 'a' :: 'l' :: 's' :: 'e' :: rest => some (bool false, rest)
  | '"' :: rest => (readString ('"' :: rest)).map fun (text, rest) => (str text, rest)
  | c :: rest =>
    if c = '[' ∨ c = '{' then container (c :: rest)
    else (Number.read? (c :: rest)).map fun (n, rest) => (number n, rest)
  | [] => none

/-- A value in which containers stand at most `depth` deep inside one another. -/
def readValue : Nat → Reader Json
  | 0 => readWith fun _ => none
  | depth + 1 => readWith (readContainer (readValue depth))

/-- The one value that a text holds. -/
def read? (text : List Char) : Option Json :=
  match readValue maxDepth text with
  | some (value, rest) => if (skipSpace rest).isEmpty then some value else none
  | none => none

end Cookbook.Json
