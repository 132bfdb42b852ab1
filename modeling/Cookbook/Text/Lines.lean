import Cookbook.Text.Bytes

/-!
# Lines

A line ends at a line feed. `splitLines` separates a text at its line feeds and `joinLines` puts it
together again (`joinLines_splitLines`); `fullLines` keeps each line feed with the line that it ends,
so that the lines of a text, one after the other, are the text (`flatten_fullLines`).
-/

namespace Cookbook.Text

/-- The parts of a text between its line feeds; never the empty list. -/
def splitLines : List Char → List (List Char)
  | [] => [[]]
  | c :: rest =>
    if c = '\n' then [] :: splitLines rest
    else
      match splitLines rest with
      | [] => [[c]]
      | line :: lines => (c :: line) :: lines

/-- Lines with a line feed between each two. -/
def joinLines : List (List Char) → List Char
  | [] => []
  | [line] => line
  | line :: lines => line ++ '\n' :: joinLines lines

/-- The lines of a text, each with the line feed that ends it; the empty text has none. -/
def fullLines : List Char → List (List Char)
  | [] => []
  | c :: rest =>
    if c = '\n' then [c] :: fullLines rest
    else
      match fullLines rest with
      | [] => [[c]]
      | line :: lines => (c :: line) :: lines

/-- Each line with the byte offset at which it starts, the first one at `start`. -/
def locate : Nat → List (List Char) → List (Nat × List Char)
  | _, [] => []
  | start, line :: lines => (start, line) :: locate (start + byteSize line) lines

/-- The first line without its ending, a line feed or a carriage return and a line feed. -/
def firstLine (text : List Char) : List Char :=
  match fullLines text with
  | [] => []
  | line :: _ =>
    match line.reverse with
    | '\n' :: '\r' :: front => front.reverse
    | '\n' :: front => front.reverse
    | _ => line

/-- The number of line feeds. -/
def lineFeeds (text : List Char) : Nat :=
  text.count '\n'

/-! ## Laws -/

theorem splitLines_ne_nil (text : List Char) : splitLines text ≠ [] := by
  cases text with
  | nil => simp [splitLines]
  | cons c rest =>
    simp only [splitLines]
    split
    · simp
    · split <;> simp

/-- No part of a text holds a line feed. -/
theorem lineFeed_not_mem_of_mem_splitLines {text line : List Char}
    (h : line ∈ splitLines text) : '\n' ∉ line := by
  induction text generalizing line with
  | nil =>
    rw [splitLines, List.mem_singleton] at h
    subst h
    exact List.not_mem_nil
  | cons c rest ih =>
    rw [splitLines] at h
    split at h
    -- A line feed starts with an empty part, and any other character joins the first part of the
    -- rest.
    · rcases List.mem_cons.1 h with rfl | h
      · exact List.not_mem_nil
      · exact ih h
    · next hc =>
      cases hs : splitLines rest with
      | nil => exact absurd hs (splitLines_ne_nil rest)
      | cons first lines =>
        rw [hs] at h ih
        rcases List.mem_cons.1 h with rfl | h
        · intro hmem
          rcases List.mem_cons.1 hmem with heq | hmem
          · exact hc heq.symm
          · exact ih List.mem_cons_self hmem
        · exact ih (List.mem_cons_of_mem _ h)

/-- Joining the parts of a text gives it back. -/
theorem joinLines_splitLines (text : List Char) : joinLines (splitLines text) = text := by
  induction text with
  | nil => rfl
  | cons c rest ih =>
    simp only [splitLines]
    split
    · next h =>
      cases hs : splitLines rest with
      | nil => exact absurd hs (splitLines_ne_nil rest)
      | cons line lines => simp [joinLines, ← hs, ih, h]
    · cases hs : splitLines rest with
      | nil => exact absurd hs (splitLines_ne_nil rest)
      | cons line lines =>
        rw [hs] at ih
        cases lines with
        | nil => simpa [joinLines] using ih
        | cons next lines => simpa [joinLines] using ih

/-- The full lines of a text, one after the other, are the text. -/
theorem flatten_fullLines (text : List Char) : (fullLines text).flatten = text := by
  induction text with
  | nil => rfl
  | cons c rest ih =>
    simp only [fullLines]
    split
    · simp [ih]
    · cases hs : fullLines rest with
      | nil => rw [hs] at ih; simpa using ih
      | cons line lines => rw [hs] at ih; simpa using ih

end Cookbook.Text
