import Cookbook.Artifact.Header
import Cookbook.Text.Structure

/-!
# Bodies

The body of a recipe is its executable part. In a native artifact it is the dedented block of the
payload function; elsewhere it is everything after the header, without blanks around it.

## Main definitions

* `Body.block`: the block of the function that starts a text.
* `Body.find`: the body of an artifact.
-/

namespace Cookbook.Body

open Cookbook.Text

/-! ## The signature -/

/-- The offset of the first colon outside brackets, on the line that `depth` zero stands for. A bracket
that closes nothing takes the depth below zero, so it is an integer. It has no bounds here; a signed
counter of 32 bits holds it in every text with less than `2 ^ 31` brackets. -/
def colonOf? (depth : Int) : List (Nat × Char) → Option Nat
  | [] => none
  | (offset, c) :: rest =>
    if isOpening c then colonOf? (depth + 1) rest
    else if isClosing c then colonOf? (depth - 1) rest
    else if c = ':' ∧ depth = 0 then some offset
    -- Inside brackets a signature may go on on the next line; outside them its line has ended.
    else if c = '\n' ∧ depth = 0 then none
    else colonOf? depth rest

/-- What follows the colon of the signature that starts a text. -/
def afterSignature (source : List Char) : Except SignatureFault (List Char) :=
  match breakOn? ['('] source with
  | none => .error .noParameters
  | some (before, _) =>
    -- The parenthesis is looked for in the plain text, and the scan starts at it: a quote or a
    -- comment sign in front of it hides nothing.
    let openAt := byteSize before
    match matchingClose? (dropBytes openAt source) with
    | none => .error .unclosed
    | some length =>
      let result := dropBytes (openAt + length + 1) source
      match colonOf? 0 (structural result) with
      | none => .error .noColon
      | some colon => .ok (dropBytes (colon + 1) result)

/-! ## The lines of a block -/

/-- What a line of a block is. -/
inductive LineKind where
  | blank
  | comment
  | code
  /-- A line inside a text literal that an earlier line opened. -/
  | inLiteral
  deriving DecidableEq, Repr

/-- A space or a tab. -/
def isIndent (c : Char) : Bool :=
  c == ' ' || c == '\t'

/-- The width of a line's indent. -/
def indentWidth (line : List Char) : Nat :=
  (line.takeWhile isIndent).length

/-- Text without carriage returns at its end. -/
def dropReturns (line : List Char) : List Char :=
  dropEndWhile (· == '\r') line

/-- The quote of the triple-quoted literal that is open after a line; `quote?` is the one that is
open before it. -/
def openQuote? (quote? : Option Char) (line : List Char) : Option Char :=
  let before : Mode :=
    match quote? with
    | some q => .tripled q
    | none => .code
  match (scan before 0 line).mode with
  | .tripled q => some q
  -- A literal in simple quotes ends with its line, closed or not.
  | _ => none

/-- What a line is, given whether it starts inside a literal. -/
def kindOf (inside : Bool) (line : List Char) : LineKind :=
  if inside then .inLiteral
  else
    match trimStart line with
    | [] => .blank
    | '#' :: _ => .comment
    | _ => .code

/-- The lines of a block with their kinds. It ends before the first line of code that is indented
no deeper than `indent`. -/
def blockLines (indent : Nat) (quote? : Option Char) : List (List Char) → List (LineKind × List Char)
  | [] => []
  | raw :: rest =>
    let line := dropReturns raw
    match kindOf quote?.isSome line with
    | .blank => (.blank, line) :: blockLines indent quote? rest
    -- A comment belongs to the block whatever its indent; `trimBlock` drops those at the end.
    | .comment => (.comment, line) :: blockLines indent quote? rest
    | .inLiteral => (.inLiteral, line) :: blockLines indent (openQuote? quote? line) rest
    | .code =>
      if indentWidth line ≤ indent then []
      else (.code, line) :: blockLines indent (openQuote? quote? line) rest

/-! ## Dedenting -/

/-- A line without the block's indent. Code also loses the blanks at its end. -/
def dedent (indent : Nat) : LineKind × List Char → List Char
  | (.blank, _) => []
  | (.code, line) => trimEnd (line.drop indent)
  -- These lines may be indented less than the code; they lose the indent that they have.
  | (.comment, line) | (.inLiteral, line) => line.drop (min (indentWidth line) indent)

/-- The least indent of a line of code; none if there is no code. -/
def codeIndent? (lines : List (LineKind × List Char)) : Option Nat :=
  (lines.filterMap fun (kind, line) =>
    if kind = .code then some (indentWidth line) else none).min?

/-- Blank lines in front, and everything after the last line of code or literal, is left out. -/
def trimBlock (lines : List (LineKind × List Char)) : List (LineKind × List Char) :=
  let started := lines.dropWhile fun (kind, _) => kind = .blank
  (started.reverse.dropWhile fun (kind, _) => kind = .blank ∨ kind = .comment).reverse

/-- The block of the function that starts a text, without its indent. A suite on the line of the
signature is the whole block. -/
def block (source : List Char) : Except Error (List Char) :=
  match afterSignature source with
  | .error fault => .error (.malformed 1 (.malformedSignature fault))
  | .ok rest =>
    match splitLines rest with
    | [] => .error .emptyBody
    | sameLine :: following =>
      let suite := trim sameLine
      -- A comment behind the colon is no suite: the block is on the lines below.
      if !suite.isEmpty && suite.head? != some '#' then .ok suite
      else
        let lines := blockLines (indentWidth (firstLine source)) none following
        match codeIndent? lines with
        | none => .error .emptyBody
        | some indent => .ok (joinLines ((trimBlock lines).map (dedent indent)))

/-- The body of an artifact. -/
def find (text : List Char) (header : Header) (dialect : Dialect) : Except Error (List Char) := do
  let rest := dropBytes header.bodyStart text
  let body ← if dialect = .native then block rest else .ok (trim rest)
  if body.isEmpty then .error .emptyBody else .ok body

end Cookbook.Body
