import Cookbook.Text.Printable

/-!
# Quoting found text in a message

Text that a message repeats is escaped so that it can be read whatever it holds: quotes, backslashes
and line ends get a backslash, characters without a printed form their code point in braces.
-/

namespace Cookbook.Text

/-- A code point in hexadecimal, in braces after a backslash and a `u`. -/
def codePoint (c : Char) : List Char :=
  ['\\', 'u', '{'] ++ Nat.toDigits 16 c.toNat ++ ['}']

/-- The escaped form of one character; `first` tells whether nothing stands before it. -/
def quoteChar (first : Bool) (c : Char) : List Char :=
  if c = '\x00' then ['\\', '0']
  else if c = '\t' then ['\\', 't']
  else if c = '\r' then ['\\', 'r']
  else if c = '\n' then ['\\', 'n']
  else if c = '\'' ∨ c = '"' ∨ c = '\\' then ['\\', c]
  else if (first && isExtending c) || !isPrintable c then codePoint c
  else [c]

/-- The escaped form of a text. -/
def quote : List Char → List Char
  | [] => []
  | c :: rest => quoteChar true c ++ rest.flatMap (quoteChar false)

end Cookbook.Text
