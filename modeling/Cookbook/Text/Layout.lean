import Cookbook.Text.Blank

/-!
# Layout

Between the tokens of a rule or of a registration call stand white space and comments; a comment
runs from a number sign to the end of its line.
-/

namespace Cookbook.Text

/-- The text without leading white space and comments; `comment` tells whether it starts inside a
comment. -/
def skipLayoutFrom (comment : Bool) : List Char → List Char
  | [] => []
  | c :: rest =>
    if comment then skipLayoutFrom (c != '\n') rest
    else if isSpace c then skipLayoutFrom false rest
    else if c = '#' then skipLayoutFrom true rest
    else c :: rest

/-- The text without leading white space and comments. -/
def skipLayout (text : List Char) : List Char :=
  skipLayoutFrom false text

/-! ## Laws -/

theorem skipLayoutFrom_suffix (comment : Bool) (text : List Char) :
    ∃ skipped, text = skipped ++ skipLayoutFrom comment text := by
  induction text generalizing comment with
  | nil => exact ⟨[], rfl⟩
  | cons c rest ih =>
    simp only [skipLayoutFrom]
    split
    · obtain ⟨skipped, h⟩ := ih (c != '\n')
      exact ⟨c :: skipped, by rw [List.cons_append, ← h]⟩
    · split
      · obtain ⟨skipped, h⟩ := ih false
        exact ⟨c :: skipped, by rw [List.cons_append, ← h]⟩
      · split
        · obtain ⟨skipped, h⟩ := ih true
          exact ⟨c :: skipped, by rw [List.cons_append, ← h]⟩
        · exact ⟨[], rfl⟩

/-- Layout is skipped, nothing else is touched. -/
theorem skipLayout_suffix (text : List Char) : ∃ skipped, text = skipped ++ skipLayout text :=
  skipLayoutFrom_suffix false text

end Cookbook.Text
