/-!
# Parsers

A parser takes a text from a position on. It either makes a value and leaves the text that follows
it, or it is stuck and leaves the text that it could not go on with, from which a message can name
what stands there.

## Main results

* `Parser.bind_eq_done_iff`: a sequence succeeds exactly if its parts do, one after the other.
-/

namespace Cookbook.Text

/-- What a parser makes of a text. -/
inductive Outcome (α : Type) where
  /-- A value, and the text that follows it. -/
  | done (value : α) (rest : List Char)
  /-- No value, and the text with which the parser could not go on. -/
  | stuck (rest : List Char)

namespace Outcome

variable {α β : Type}

/-- Changes the value. -/
def map (f : α → β) : Outcome α → Outcome β
  | done value rest => done (f value) rest
  | stuck rest => stuck rest

/-- The text that is left. -/
def rest : Outcome α → List Char
  | done _ rest => rest
  | stuck rest => rest

/-- The value with the text that follows it, if there is one. -/
def toOption : Outcome α → Option (α × List Char)
  | done value rest => some (value, rest)
  | stuck _ => none

end Outcome

/-- Takes a value from the start of a text. -/
def Parser (α : Type) := List Char → Outcome α

namespace Parser

variable {α β : Type}

/-- Takes nothing. -/
def pure (value : α) : Parser α := fun input => .done value input

/-- Goes on with what the first value asks for. -/
def bind (p : Parser α) (next : α → Parser β) : Parser β := fun input =>
  match p input with
  | .done value rest => next value rest
  | .stuck rest => .stuck rest

instance : Monad Parser where
  pure := Parser.pure
  bind := Parser.bind

/-- Never makes a value. -/
def fail : Parser α := fun input => .stuck input

/-! ## Laws -/

theorem bind_apply (p : Parser α) (next : α → Parser β) (input : List Char) :
    (p >>= next) input =
      match p input with
      | .done value rest => next value rest
      | .stuck rest => .stuck rest := rfl

/-- A sequence succeeds exactly if its parts do, one after the other. -/
theorem bind_eq_done_iff {p : Parser α} {next : α → Parser β} {input rest : List Char}
    {value : β} :
    (p >>= next) input = .done value rest ↔
      ∃ first middle, p input = .done first middle ∧ next first middle = .done value rest := by
  rw [bind_apply]
  cases p input with
  | done first middle => simp [and_assoc]
  | stuck rest' => simp

end Parser

end Cookbook.Text
