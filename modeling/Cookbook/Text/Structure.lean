import Cookbook.Text.Literal

/-!
# Structural characters

The characters of a text that stand outside its text literals and comments. Brackets are paired
among them only.

The scan is a state machine over single characters: its state after a text (`Scan.mode`) tells
whether a literal or a comment is open there.

## Main definitions

* `scan`: the structural characters of a text, and the state after it.
* `matchingClose?`: where the bracket that starts a text is closed.
-/

namespace Cookbook.Text

/-- What the scan stands in. -/
inductive Mode where
  | code
  | comment
  /-- A literal in simple quotes. -/
  | quoted (quote : Char)
  /-- A literal in triple quotes, in which a backslash escapes nothing. -/
  | tripled (quote : Char)
  deriving DecidableEq, Repr

/-- Structural characters with their byte offsets, and the state after the text. -/
structure Scan where
  structural : List (Nat × Char)
  mode : Mode
  deriving DecidableEq, Repr

/-- Puts a structural character in front. -/
def Scan.cons (offset : Nat) (c : Char) (s : Scan) : Scan :=
  { s with structural := (offset, c) :: s.structural }

/-- Scans a text that starts at a byte offset. -/
def scan (mode : Mode) (offset : Nat) : List Char → Scan
  | [] => ⟨[], mode⟩
  | c :: rest =>
    let next := offset + c.utf8Size
    match mode with
    -- The line feed that ends a comment is structural again.
    | .comment => if c = '\n' then (scan .code next rest).cons offset c else scan .comment next rest
    | .quoted q =>
      if c = '\\' then
        match rest with
        | [] => ⟨[], .quoted q⟩
        | e :: rest => scan (.quoted q) (next + e.utf8Size) rest
      else if c = q then scan .code next rest
      else scan (.quoted q) next rest
    | .tripled q =>
      match rest with
      | a :: b :: rest =>
        if c = q ∧ a = q ∧ b = q then scan .code (next + a.utf8Size + b.utf8Size) rest
        else scan (.tripled q) next (a :: b :: rest)
      | rest => scan (.tripled q) next rest
    | .code =>
      if isQuote c then
        match rest with
        | a :: b :: rest =>
          if a = c ∧ b = c then scan (.tripled c) (next + a.utf8Size + b.utf8Size) rest
          else scan (.quoted c) next (a :: b :: rest)
        | rest => scan (.quoted c) next rest
      else if c = '#' then scan .comment next rest
      else (scan .code next rest).cons offset c

/-- The structural characters of a text. -/
def structural (text : List Char) : List (Nat × Char) :=
  (scan .code 0 text).structural

/-! ## Brackets -/

/-- An opening bracket. -/
def isOpening (c : Char) : Bool :=
  c == '(' || c == '[' || c == '{'

/-- A closing bracket. -/
def isClosing (c : Char) : Bool :=
  c == ')' || c == ']' || c == '}'

theorem eq_of_isOpening {c : Char} (h : isOpening c = true) : c = '(' ∨ c = '[' ∨ c = '{' := by
  simpa [isOpening, or_assoc] using h

theorem eq_of_isClosing {c : Char} (h : isClosing c = true) : c = ')' ∨ c = ']' ∨ c = '}' := by
  simpa [isClosing, or_assoc] using h

/-- The bracket that closes another. -/
def closing (c : Char) : Char :=
  if c = '(' then ')' else if c = '[' then ']' else '}'

/-- Where `depth` open brackets are closed. Brackets are only counted, not compared. -/
def closeOf? (depth : Nat) : List (Nat × Char) → Option Nat
  | [] => none
  | (offset, c) :: rest =>
    if isOpening c then closeOf? (depth + 1) rest
    else if isClosing c then
      match depth with
      -- Nothing is open here: the text does not start with an opening bracket.
      | 0 => none
      | 1 => some offset
      | depth + 2 => closeOf? (depth + 1) rest
    else closeOf? depth rest

/-- The offset of the bracket that closes the one at the start of a text. -/
def matchingClose? (text : List Char) : Option Nat :=
  closeOf? 0 (structural text)

end Cookbook.Text
