import Cookbook.Argument
import Cookbook.Error
import Cookbook.Rule.Grammar
import Cookbook.Text.Structure

/-!
# Splitting a call

The arguments of a registration call and the entries of its argument map are cut at commas outside
brackets, literals and comments. Every part keeps its byte offset, so that errors inside it can be
located.

## Main definitions

* `takeGroup`: the group in brackets at the start of a text.
* `takeValue`: the value at the start of a text, up to a comma or a closing bracket.
* `splitArguments`: the arguments of a call.
* `splitEntries`: the entries of an argument map.
-/

namespace Cookbook

open Cookbook.Text

/-- A part of a text with its byte offset there. -/
structure Segment where
  offset : Nat
  text : List Char
  deriving DecidableEq, Repr

/-! ## Groups in brackets -/

/-- What stands in front of `rest` in a text that ends in it. -/
def front (text rest : List Char) : List Char :=
  text.take (text.length - rest.length)

@[simp] theorem front_append (taken rest : List Char) : front (taken ++ rest) rest = taken := by
  simp [front]

/-- Puts text in front of a value. -/
def keep (text : List Char) : Option (List Char × List Char) → Option (List Char × List Char)
  | some (value, rest) => some (text ++ value, rest)
  | none => none

theorem keep_eq_some {text value rest : List Char} {taken : Option (List Char × List Char)}
    (h : keep text taken = some (value, rest)) :
    ∃ inner, taken = some (inner, rest) ∧ value = text ++ inner := by
  cases taken with
  | none => cases h
  | some taken => cases h; exact ⟨taken.1, rfl, rfl⟩

/-- The start of a text up to the last of the closing brackets that are `owed`, in this order, and
what follows it. A bracket that opens on the way has to be closed first; literals and comments hide
brackets. `comment` tells whether the text starts inside a comment. -/
def takeOwed (comment : Bool) (owed input : List Char) : Option (List Char × List Char) :=
  match owed, input with
  | [], input => some ([], input)
  | _ :: _, [] => none
  | close :: others, c :: rest =>
    if comment && c != '\n' then keep [c] (takeOwed true (close :: others) rest)
    else if isClosing c then
      -- The bracket has to be the one that is owed, unlike in `closeOf?`, which only counts.
      if c = close then keep [c] (takeOwed false others rest) else none
    else if c = '#' then keep [c] (takeOwed true (close :: others) rest)
    else if isQuote c then
      match h : literal (c :: rest) with
      | .done _ after =>
        have := length_lt_of_literal h
        keep (front (c :: rest) after) (takeOwed false (close :: others) after)
      | .stuck _ => none
    else if isOpening c then keep [c] (takeOwed false (closing c :: close :: others) rest)
    else keep [c] (takeOwed false (close :: others) rest)
termination_by input.length
decreasing_by all_goals (simp only [List.length_cons] at *; omega)

/-- The group in brackets at the start of a text, and what follows it. -/
def takeGroup : List Char → Option (List Char × List Char)
  | [] => none
  | c :: rest => if isOpening c then keep [c] (takeOwed false [closing c] rest) else none

/-- What is taken stands in front of what is left. -/
theorem eq_append_of_takeOwed {comment : Bool} {owed input taken rest : List Char}
    (h : takeOwed comment owed input = some (taken, rest)) : input = taken ++ rest := by
  fun_induction takeOwed comment owed input generalizing taken
  case case1 => cases h; rfl
  case case2 | case5 | case8 => cases h
  case case7 hliteral _ ih =>
    obtain ⟨inner, hinner, rfl⟩ := keep_eq_some h
    obtain ⟨literal, -, htext⟩ := exists_append_of_literal hliteral
    rw [htext, front_append, ih hinner, List.append_assoc]
  -- Every other step takes one character and goes on.
  case case3 ih | case4 ih | case6 ih | case9 ih | case10 ih =>
    obtain ⟨inner, hinner, rfl⟩ := keep_eq_some h
    rw [ih hinner]
    rfl

/-- A group is an opening bracket and what is owed for it. -/
theorem takeGroup_inv {text group rest : List Char} (h : takeGroup text = some (group, rest)) :
    ∃ c body inner, isOpening c = true ∧ text = c :: body ∧ group = c :: inner ∧
      takeOwed false [closing c] body = some (inner, rest) := by
  cases text with
  | nil => cases h
  | cons c body =>
    rw [takeGroup] at h
    split at h
    · next hopening =>
      obtain ⟨inner, hinner, rfl⟩ := keep_eq_some h
      exact ⟨c, body, inner, hopening, rfl, rfl, hinner⟩
    · cases h

/-- A group stands in front of what is left. -/
theorem eq_append_of_takeGroup {text group rest : List Char}
    (h : takeGroup text = some (group, rest)) : text = group ++ rest := by
  obtain ⟨c, body, inner, -, rfl, rfl, hinner⟩ := takeGroup_inv h
  rw [eq_append_of_takeOwed hinner]
  rfl

/-- A group in brackets takes at least one character. -/
theorem length_lt_of_takeGroup {text group rest : List Char}
    (h : takeGroup text = some (group, rest)) : rest.length < text.length := by
  obtain ⟨c, body, inner, -, rfl, -, hinner⟩ := takeGroup_inv h
  rw [eq_append_of_takeOwed hinner]
  simp only [List.length_cons, List.length_append]
  omega

/-! ## Values -/

/-- Puts layout in front of a value, unless the value ends there. -/
def keepWithin (c : Char) : Option (List Char × List Char) → Option (List Char × List Char)
  | some ([], rest) => some ([], rest)
  | some (value, rest) => some (c :: value, rest)
  | none => none

/-- The value at the start of a text, and what follows it: a comma or a closing bracket, or nothing.
`comment` tells whether the text starts inside a comment. Blanks and comments after the value are
taken but do not belong to it. -/
def takeValue (comment : Bool) (input : List Char) : Option (List Char × List Char) :=
  match input with
  | [] => some ([], [])
  | c :: rest =>
    if comment && c != '\n' then keepWithin c (takeValue true rest)
    -- Layout in front of the end is dropped on the way back, by `keepWithin`.
    else if c == ',' || isClosing c then some ([], c :: rest)
    else if c = '#' then keepWithin c (takeValue true rest)
    else if isBlank c then keepWithin c (takeValue false rest)
    else if isQuote c then
      match h : literal (c :: rest) with
      | .done _ after =>
        have := length_lt_of_literal h
        keep (front (c :: rest) after) (takeValue false after)
      | .stuck _ => none
    else if isOpening c then
      match h : takeGroup (c :: rest) with
      | some (group, after) =>
        have := length_lt_of_takeGroup h
        keep group (takeValue false after)
      | none => none
    else keep [c] (takeValue false rest)
termination_by input.length
decreasing_by all_goals (simp only [List.length_cons] at *; omega)

/-! ## Arguments of a call -/

/-- The label and the equals sign in front of a labelled argument; the text that is left starts
with the value. -/
def takeLabel (input : List Char) : Option String × List Char :=
  match Grammar.label Grammar.identifier input with
  | .done label rest => (some label, skipLayout rest)
  | .stuck _ => (none, input)

/-- The arguments from a position on. -/
def argumentsFrom (text : List Char) : Nat → List Char → Except Nat (List (Argument Segment))
  | 0, input => .error (offsetOf text input)
  | fuel + 1, input =>
    match skipLayout input with
    | [] => .ok []
    | start =>
      let (label, start) := takeLabel start
      let offset := offsetOf text start
      match takeValue false start with
      | none => .error offset
      | some (value, []) => .ok [⟨label, ⟨offset, value⟩⟩]
      | some (value, ',' :: rest) => do
        let arguments ← argumentsFrom text fuel rest
        return ⟨label, ⟨offset, value⟩⟩ :: arguments
      -- A closing bracket that opened nowhere ends the value, and no argument can follow it.
      | some (_, rest) => .error (offsetOf text rest)

/-- The arguments that a text between parentheses lists, or the offset at which it cannot be
split. -/
def splitArguments (text : List Char) : Except Nat (List (Argument Segment)) :=
  argumentsFrom text (text.length + 1) text

/-! ## Entries of a map -/

/-- An entry of an argument map: its key and the text of its rule. -/
structure Entry where
  key : String
  keyOffset : Nat
  value : Segment
  deriving DecidableEq, Repr

/-- Where a map is malformed, and what was expected there. -/
abbrev MapFault := Nat × MapPart

/-- The text of a rule up to the end of its entry, and what follows. The formals of a `lambda` come
first, because the commas between them end nothing. -/
def takeRule (input : List Char) : Except (List Char) (List Char × List Char) :=
  let body :=
    match Grammar.formals input with
    | .done _ rest => rest
    | .stuck _ => input
  match takeValue false body with
  | some (value, rest) =>
    .ok (trimEnd (front input body ++ value), rest)
  | none => .error body

/-- The entries from a position on, and what follows the closing brace. -/
def entriesFrom (text : List Char) : Nat → List Char → Except MapFault (List Entry × List Char)
  | 0, input => .error (offsetOf text input, .key)
  | fuel + 1, input =>
    match skipLayout input with
    | '}' :: rest => .ok ([], rest)
    | start =>
      let keyOffset := offsetOf text start
      match literal start with
      | .stuck _ => .error (keyOffset, .key)
      | .done key rest =>
        match skipLayout rest with
        | ':' :: rest =>
          let valueStart := skipLayout rest
          match takeRule valueStart with
          | .error body => .error (offsetOf text body, .value)
          | .ok (value, rest) =>
            let entry : Entry :=
              ⟨String.ofList key, keyOffset, ⟨offsetOf text valueStart, value⟩⟩
            match rest with
            | ',' :: rest => do
              let (entries, rest) ← entriesFrom text fuel rest
              return (entry :: entries, rest)
            | '}' :: rest => .ok ([entry], rest)
            | rest => .error (offsetOf text rest, .separator)
        | rest => .error (offsetOf text rest, .colon)

/-- The entries of an argument map. -/
def splitEntries (text : List Char) : Except MapFault (List Entry) :=
  match skipLayout text with
  | '{' :: rest =>
    match entriesFrom text (text.length + 1) rest with
    | .error fault => .error fault
    | .ok (entries, rest) =>
      match skipLayout rest with
      | [] => .ok entries
      | rest => .error (offsetOf text rest, .ending)
  | start => .error (offsetOf text start, .opening)

end Cookbook
