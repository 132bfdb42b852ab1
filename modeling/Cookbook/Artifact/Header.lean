import Cookbook.Dialect
import Cookbook.Error
import Cookbook.Text.Search

/-!
# Headers

The header of an artifact holds the registration call. In a native artifact it runs from the
decorator line to the line of the payload function; elsewhere it stands between two markers, the
first of which starts the artifact.

## Main definitions

* `Header.find`: the header of an artifact.
* `Header.lineAt`: the artifact's line of a byte offset into the header.
-/

namespace Cookbook

open Cookbook.Text

/-- The names that introduce a native recipe. -/
structure Introducers where
  /-- The name of the decorator that registers the recipe. -/
  decorator : String
  /-- The name of the payload function. -/
  payload : String
  deriving DecidableEq, Repr

/-- The usual names. -/
def Introducers.default : Introducers := ⟨"register", "recipe"⟩

instance : Inhabited Introducers := ⟨.default⟩

/-- Where the header of an artifact stands, and what it holds. -/
structure Header where
  /-- The byte offset at which the header starts. -/
  start : Nat
  /-- The byte offset just past the header. -/
  stop : Nat
  /-- The byte offset at which the payload starts. -/
  bodyStart : Nat
  /-- The text of the header without markers and comment signs. -/
  interior : List Char
  /-- The line of the artifact on which the interior starts. -/
  interiorLine : Nat
  deriving DecidableEq, Repr

namespace Header

/-- The artifact's line of a byte offset into the interior; an offset past its end counts as the
end. -/
def lineAt (header : Header) (offset : Nat) : Nat :=
  header.interiorLine + lineFeeds (takeBytes offset header.interior)

/-! ## Native headers -/

/-- Whether `p` holds of the text after some of its leading blanks. -/
def afterBlanks (p : List Char → Bool) : List Char → Bool
  | [] => p []
  | c :: rest => p (c :: rest) || (isBlank c && afterBlanks p rest)

/-- Whether the text starts with `word` and `p` holds of what follows. -/
def afterText (word : List Char) (p : List Char → Bool) (text : List Char) : Bool :=
  match word.isPrefixOf? text with
  | some rest => p rest
  | none => false

/-- Whether the text starts with a blank and `p` holds after some of its leading blanks, at least
one. -/
def afterSomeBlanks (p : List Char → Bool) : List Char → Bool
  | [] => false
  | c :: rest => isBlank c && afterBlanks p rest

/-- Whether the text starts with an opening parenthesis. -/
def atParenthesis (text : List Char) : Bool :=
  text.head? == some '('

/-- Whether a line introduces the registration: an at sign, the decorator's name and an opening
parenthesis, with blanks in front of the first and of the last. -/
def isDecoratorLine (introducers : Introducers) (line : List Char) : Bool :=
  afterBlanks (afterText ('@' :: introducers.decorator.toList) (afterBlanks atParenthesis)) line

/-- Whether a line introduces the payload: the word `def`, the payload's name and an opening
parenthesis, with blanks between them. -/
def isPayloadLine (introducers : Introducers) (line : List Char) : Bool :=
  afterBlanks
    (afterText "def".toList
      (afterSomeBlanks (afterText introducers.payload.toList (afterBlanks atParenthesis)))) line

/-- The numbers and the offsets of the lines that satisfy a test, the first line being `number`. -/
def linesWhere (p : List Char → Bool) (number : Nat) : List (Nat × List Char) → List (Nat × Nat)
  | [] => []
  | (offset, line) :: lines =>
    if p line then (number, offset) :: linesWhere p (number + 1) lines
    else linesWhere p (number + 1) lines

/-- The header of a native artifact. -/
def findNative (text : List Char) (introducers : Introducers) : Except Error Header :=
  let lines := locate 0 (fullLines text)
  let decorators := linesWhere (isDecoratorLine introducers) 1 lines
  let payloads := linesWhere (isPayloadLine introducers) 1 lines
  match decorators, payloads with
  | [(line, start)], [(payloadLine, bodyStart)] =>
    -- The two lines are found apart from each other, so the payload may stand first.
    if bodyStart < start then
      .error (.ambiguous (.order introducers.payload line payloadLine))
    else
      .ok ⟨start, bodyStart, bodyStart, sliceBytes start bodyStart text, line⟩
  | _, _ =>
    .error (.ambiguous (.introducers introducers.decorator introducers.payload
      (decorators.map Prod.fst) (payloads.map Prod.fst)))

/-! ## Marked headers -/

/-- A header line without its comment sign and one space after it; a line without comment sign
stays as it is. -/
def stripComment (line : List Char) : List Char :=
  match trimStart line with
  -- Blanks in front of the comment sign go with it.
  | '#' :: ' ' :: rest => rest
  | '#' :: rest => rest
  | _ => line

/-- A header without comment signs. -/
def stripComments (raw : List Char) : List Char :=
  joinLines ((splitLines raw).map stripComment)

/-- The header between two markers. -/
def findMarked (text : List Char) (opening closing : String) (comments : Bool) :
    Except Error Header :=
  match opening.toList.isPrefixOf? text with
  | none =>
    -- The message shows as many characters as the marker has bytes.
    let found := String.ofList (text.take opening.utf8ByteSize)
    .error (.malformed 1 (.noOpeningMarker opening found))
  | some inside =>
    match breakOn? closing.toList inside with
    | none => .error (.malformed 1 (.noClosingMarker opening closing))
    | some (raw, _) =>
      let stop := opening.utf8ByteSize + byteSize raw + closing.utf8ByteSize
      .ok ⟨0, stop, stop, if comments then stripComments raw else raw, 1⟩

/-- The header of an artifact. -/
def find (text : List Char) (dialect : Dialect) (introducers : Introducers) :
    Except Error Header :=
  match dialect.markers? with
  | none => findNative text introducers
  | some (opening, closing) => findMarked text opening closing dialect.commentsHeader

end Header

end Cookbook
