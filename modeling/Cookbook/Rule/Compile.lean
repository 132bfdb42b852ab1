import Cookbook.Error
import Cookbook.Rule.Grammar
import Cookbook.Rule.Lower
import Cookbook.Text.Search

/-!
# Compiling a rule

The text of a rule is read by the grammar and given its expression. Text that the grammar does not
derive is reported by naming the construct at which reading stopped.
-/

namespace Cookbook

open Cookbook.Text

/-- The characters that operators are made of. -/
def operatorChars : List Char := "*/%-<>=!&|^~@".toList

/-- The construct at the start of a text that could not be read. -/
def Construct.ofUnread (unread : List Char) : Construct :=
  let text := trimStart unread
  match String.ofList (text.takeWhile isIdentChar) with
  | "lambda" => .nestedLambda
  | "for" => .comprehension
  | "not" => .operator "not"
  | "and" => .operator "and"
  | "or" => .operator "or"
  | "is" => .operator "is"
  | "in" => .operator "in"
  | "if" => .misplaced "if"
  | "else" => .misplaced "else"
  | _ =>
    match text with
    | [] => .incomplete
    | '[' :: _ => if contains " for ".toList text then .comprehension else .subscript
    | '{' :: _ => .braces
    | '!' :: '(' :: _ => .exclamation
    | ':' :: ':' :: _ => .path
    | c :: _ =>
      if c ∈ operatorChars then
        .operator (String.ofList (text.takeWhile fun o => operatorChars.contains o))
      else .unexpected (String.ofList text)

/-- The rule that a text `lambda formals: expression` gives for a parameter. `lineOf` tells the line
of a byte offset into the text. -/
def Rule.compile (parameter : String) (text : List Char) (lineOf : Nat → Nat) :
    Except Error Rule :=
  let trimmed := trimStart text
  let start := lineOf (offsetOf text trimmed)
  if "lambda".toList.isPrefixOf trimmed then
    let outcome := Grammar.lambda text
    let unread := skipLayout outcome.rest
    -- A rule that was read but does not end there is reported like one that could not be read, at
    -- the text that is left.
    match outcome, unread with
    | .done (formals, term) _, [] =>
      match Rule.lower formals term with
      | .ok expression => .ok ⟨parameter, formals, expression⟩
      | .error construct => .error (.unsupported parameter construct start)
    | _, unread =>
      .error (.unsupported parameter (.ofUnread unread) (lineOf (offsetOf text unread)))
  else .error (.unsupported parameter (.notLambda (String.ofList trimmed)) start)

end Cookbook
