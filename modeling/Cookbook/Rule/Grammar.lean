import Cookbook.Rule.Term
import Cookbook.Text.Identifier
import Cookbook.Text.Layout
import Cookbook.Text.Literal

/-!
# The grammar of rules

    rule        = "lambda" [formal {"," formal} [","]] ":" expression
    expression  = sum ["if" sum "else" expression]
    sum         = access {"+" access}
    access      = primary {"." name | arguments}
    primary     = literal | integer | name | name "!" arguments | "(" [items] ")"
    arguments   = "(" [argument {"," argument} [","]] ")"
    argument    = [name "="] expression

White space and comments may stand between tokens. One expression in parentheses is that
expression, anything else in parentheses is a tuple.

Each nonterminal is a parser that takes the parser of nested expressions as a parameter; `expression`
ties the knot. `expression n` reads every expression of a text shorter than `n`.
-/

namespace Cookbook.Grammar

open Cookbook.Text

/-! ## Tokens -/

/-- Words that are no names. -/
def reserved : List String :=
  ["if", "else", "lambda", "for", "in", "not", "and", "or", "is"]

/-- Takes layout. -/
def layout : Parser Unit := fun input => .done () (skipLayout input)

/-- Takes an identifier. -/
def identifier : Parser String
  | [] => .stuck []
  | c :: rest =>
    if isIdentStart c then
      .done (String.ofList (c :: rest.takeWhile isIdentChar)) (rest.dropWhile isIdentChar)
    else .stuck (c :: rest)

/-- Takes an identifier that is not reserved. -/
def name : Parser String := fun input =>
  match identifier input with
  | .done id rest => if id ∈ reserved then .stuck input else .done id rest
  | .stuck _ => .stuck input

/-- What follows a word, if the text starts with it and it ends there. -/
def afterWord? (word : String) (input : List Char) : Option (List Char) :=
  match word.toList.isPrefixOf? input with
  | some [] => some []
  | some (c :: rest) => if isIdentChar c then none else some (c :: rest)
  | none => none

/-- Takes a word. -/
def word (word : String) : Parser Unit := fun input =>
  match afterWord? word input with
  | some rest => .done () rest
  | none => .stuck input

/-- Takes an identifier and an equals sign, which must not be doubled. -/
def label (id : Parser String) : Parser String := fun input =>
  match id input with
  | .stuck _ => .stuck input
  | .done found rest =>
    match skipLayout rest with
    -- Two signs compare, and the grammar has no comparisons.
    | '=' :: '=' :: _ => .stuck input
    | '=' :: after => .done found after
    | _ => .stuck input

/-- Whether a text starts with a minus sign, and what follows it. -/
def minusSign : List Char → Bool × List Char
  | '-' :: rest => (true, rest)
  | input => (false, input)

/-- Takes decimal digits, with a minus sign in front or not. -/
def integer : Parser Int64 := fun input =>
  let (negative, digits) := minusSign input
  let written := digits.takeWhile Char.isDigit
  let rest := digits.dropWhile Char.isDigit
  let size := (written.foldl (fun n d => n * 10 + (d.toNat - '0'.toNat)) 0 : Nat)
  let value : Int := if negative then -size else size
  if written.isEmpty then .stuck digits
  else if Int64.minValue.toInt ≤ value ∧ value ≤ Int64.maxValue.toInt then
    .done (Int64.ofInt value) rest
  else .stuck rest

/-! ## Lists -/

/-- What follows a character, if the text starts with it. -/
def after? (c : Char) : List Char → Option (List Char)
  | [] => none
  | d :: rest => if d = c then some rest else none

/-- Items with commas between them up to a closing character, and whether a comma or nothing stood
before that. -/
def separated {α : Type} (close : Char) (item : Parser α) : Nat → Parser (List α × Bool)
  | 0 => .fail
  | fuel + 1 => fun input =>
    match after? close (skipLayout input) with
    | some rest => .done ([], true) rest
    | none =>
      match (do let found ← item; layout; return found : Parser α) (skipLayout input) with
      | .stuck rest => .stuck rest
      | .done found (',' :: rest) =>
        (separated close item fuel rest).map fun (more, comma) => (found :: more, comma)
      | .done found rest =>
        match after? close rest with
        | some rest => .done ([found], false) rest
        | none => .stuck rest

/-! ## Terms -/

/-- One argument of a call. -/
def argument (expression : Parser Term) : Parser (Argument Term) := fun input =>
  match label name input with
  | .done found rest => (expression rest).map fun value => ⟨some found, value⟩
  -- What looked like a label is read again as the start of an expression.
  | .stuck _ => (expression input).map fun value => ⟨none, value⟩

/-- The arguments of a call after the opening parenthesis, up to the closing one. -/
def arguments (expression : Parser Term) (fuel : Nat) : Parser (List (Argument Term)) := fun input =>
  (separated ')' (argument expression) fuel input).map Prod.fst

/-- The term of what stands in parentheses: the items, and whether a comma or nothing stood before the
closing one. -/
def groupTerm : List Term × Bool → Term
  | ([term], false) => term
  | (terms, _) => .tuple terms

/-- What a name stands for: a constant, a macro with the arguments that follow, or itself. -/
def reference (expression : Parser Term) (fuel : Nat) (id : String) : Parser Term := fun input =>
  if id = "True" ∨ id = "true" then .done (.bool true) input
  else if id = "False" ∨ id = "false" then .done (.bool false) input
  else if id = "None" then .done .none input
  else
    match input with
    -- Nothing may stand between a macro's name, the exclamation mark and the parenthesis.
    | '!' :: '(' :: rest => (arguments expression fuel rest).map (.macroCall id)
    | rest => .done (.name id) rest

/-- A term that needs no parentheses in front of a dot. -/
def primary (expression : Parser Term) (fuel : Nat) : Parser Term := fun input =>
  match skipLayout input with
  | [] => .stuck []
  | '(' :: rest => (separated ')' expression fuel rest).map groupTerm
  | c :: rest =>
    if isQuote c then (literal (c :: rest)).map fun value => .text (String.ofList value)
    else if c.isDigit || c == '-' then (integer (c :: rest)).map .int
    else (do reference expression fuel (← name) : Parser Term) (c :: rest)

/-- Further fields and calls of a term. -/
def accesses (expression : Parser Term) : Nat → Term → Parser Term
  | 0, _ => .fail
  | fuel + 1, term => fun input =>
    match skipLayout input with
    | '.' :: rest =>
      (do
        layout
        let field ← name
        accesses expression fuel (.attribute term field) : Parser Term) rest
    | '(' :: rest =>
      (do
        let found ← arguments expression fuel
        accesses expression fuel (.call term found) : Parser Term) rest
    | _ => .done term input

/-- A primary with the fields and calls that follow it. -/
def access (expression : Parser Term) (fuel : Nat) : Parser Term := do
  let term ← primary expression fuel
  accesses expression fuel term

/-- Further parts of a sum. -/
def summands (expression : Parser Term) (depth : Nat) : Nat → Parser (List Term)
  | 0 => .fail
  | fuel + 1 => fun input =>
    match skipLayout input with
    | '+' :: rest =>
      (do
        let part ← access expression depth
        let parts ← summands expression depth fuel
        return part :: parts : Parser _) rest
    | _ => .done [] input

/-- The term of the parts of a sum. -/
def sumTerm (first : Term) : List Term → Term
  | [] => first
  | parts => .sum (first :: parts)

/-- A sum, or its only part. -/
def sum (expression : Parser Term) (fuel : Nat) : Parser Term := do
  let first ← access expression fuel
  let parts ← summands expression fuel fuel
  return sumTerm first parts

/-- A sum, or the choice between a sum and an expression. -/
def choice (expression : Parser Term) (fuel : Nat) : Parser Term := fun input =>
  match sum expression fuel input with
  | .stuck rest => .stuck rest
  | .done thenBranch rest =>
    match afterWord? "if" (skipLayout rest) with
    | none => .done thenBranch rest
    | some rest =>
      (do
        -- Only the last branch is an expression, so choices nest to the right.
        let condition ← sum expression fuel
        layout
        word "else"
        let otherwise ← expression
        return .conditional thenBranch condition otherwise : Parser Term) rest

/-- An expression of a text shorter than the given length. -/
def expression : Nat → Parser Term
  | 0 => .fail
  -- A nested expression stands behind at least one character of this one.
  | fuel + 1 => choice (expression fuel) (fuel + 1)

/-! ## Rules -/

/-- The formals of a rule, from the word `lambda` to the colon. -/
def formals : Parser (List String) := do
  layout
  word "lambda"
  -- Each formal takes a character, so the length of the text is fuel enough.
  fun input => (separated ':' name (input.length + 1) input).map Prod.fst

/-- A rule: its formals and its term. -/
def lambda : Parser (List String × Term) := do
  let names ← formals
  let term ← fun input => expression (input.length + 1) input
  return (names, term)

end Cookbook.Grammar
