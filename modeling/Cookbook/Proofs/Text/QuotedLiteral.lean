import Cookbook.Proofs.Text.ScannedLiteral

/-!
# Text as one literal

Any text can be written in double quotes, with a backslash in front of each backslash and of each
double quote, and with `\n` for a line feed. Read back, the literal has that text as its value.

## Main results

* `literal_quoted`: the grammar reads the text back, whatever follows other than a double quote.
-/

namespace Cookbook.Text

/-- How a character is written between double quotes. -/
def escaped (c : Char) : List Char :=
  if c = '\n' then ['\\', 'n']
  else if c = '\\' ∨ c = '"' then ['\\', c]
  else [c]

/-- A text as one literal in double quotes. -/
def quoted (value : List Char) : List Char :=
  '"' :: value.flatMap escaped ++ ['"']

variable {value rest : List Char}

theorem literalBody_escaped (c : Char) (rest : List Char) :
    literalBody ⟨'"', false⟩ (escaped c ++ rest) =
      (literalBody ⟨'"', false⟩ rest).map (c :: ·) := by
  unfold escaped
  split
  · next hline => rw [hline]; rfl
  · next hline =>
    split
    · next h => rcases h with rfl | rfl <;> rfl
    · next h =>
      -- Nothing else is special inside of a simple literal.
      rw [not_or] at h
      show literalBody ⟨'"', false⟩ (c :: rest) = _
      rw [literalBody.eq_def]
      simp [close?_simple, h, hline]

/-- The body of a literal gives back what was written, whatever follows. -/
theorem literalBody_flatMap_escaped (value rest : List Char) :
    literalBody ⟨'"', false⟩ (value.flatMap escaped ++ '"' :: rest) = .done value rest := by
  induction value with
  | nil => rfl
  | cons c value ih =>
    rw [List.flatMap_cons, List.append_assoc, literalBody_escaped, ih]
    rfl

/-- A written character does not begin with a double quote. -/
theorem escaped_eq_cons (c : Char) : ∃ d tail, escaped c = d :: tail ∧ d ≠ '"' := by
  unfold escaped
  split
  · exact ⟨_, _, rfl, by decide⟩
  · split
    · exact ⟨_, _, rfl, by decide⟩
    · next h => exact ⟨c, [], rfl, (not_or.mp h).2⟩

/-- The literal opens with one double quote: no second one follows the first, except at the end. -/
theorem open?_quoted (h : rest.head? ≠ some '"') :
    Delimiter.open? (quoted value ++ rest) =
      some (⟨'"', false⟩, value.flatMap escaped ++ '"' :: rest) := by
  cases value with
  | nil =>
    cases rest with
    | nil => rfl
    | cons c rest =>
      have hc : c ≠ '"' := fun he => h (by rw [he]; rfl)
      simp [quoted, Delimiter.open?, isQuote, hc]
  | cons c value =>
    obtain ⟨d, tail, hd, hne⟩ := escaped_eq_cons c
    -- Behind the first character something follows, at least the closing quote, so that a triple
    -- quote could only come from a second quote there.
    have htwo : ∃ e after, tail ++ (value.flatMap escaped ++ '"' :: rest) = e :: after :=
      List.exists_cons_of_ne_nil (by simp)
    obtain ⟨e, after, htail⟩ := htwo
    simp [quoted, Delimiter.open?, isQuote, hd, hne, htail]

/-- The grammar reads a text back from its literal, whatever follows other than a double quote. -/
theorem literal_quoted (h : rest.head? ≠ some '"') :
    literal (quoted value ++ rest) = .done value rest := by
  rw [literal, open?_quoted h]
  exact literalBody_flatMap_escaped value rest

end Cookbook.Text
