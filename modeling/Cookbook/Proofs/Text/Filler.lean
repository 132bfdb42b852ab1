import Cookbook.Proofs.Text.Layout

/-!
# Filler around values

White space and comments are all that may stand between a value and the next comma. This is more than
a gap between tokens (`IsGap`): the white space behind a value is any blank character, and a comment at
the end of a text is not closed by a line feed. What may follow therefore belongs to the notion: only
in front of nothing at all, or of a line feed, can a comment come last.

## Main definitions

* `Filler`: white space and comments in front of a text.
* `FillerFrom`: the same from the inside of a comment on.

## Main results

* `exists_filler_of_skipLayout`: what is skipped as layout is filler.
-/

namespace Cookbook.Text

/-- White space and comments in front of `rest`. A comment runs to the end of its line, or to the end
of the text. -/
inductive Filler (rest : List Char) : List Char → Prop where
  | nil : Filler rest []
  | blank {c : Char} {gap : List Char} : isBlank c = true → Filler rest gap → Filler rest (c :: gap)
  | comment {body gap : List Char} : '\n' ∉ body → (∀ c ∈ (gap ++ rest).head?, c = '\n') →
      Filler rest gap → Filler rest ('#' :: (body ++ gap))

/-- Filler that may start inside a comment: it is filler behind a number sign. -/
def FillerFrom (comment : Bool) (rest gap : List Char) : Prop :=
  Filler rest (if comment then '#' :: gap else gap)

variable {c : Char} {comment : Bool} {text rest gap : List Char}

/-! ## Forms of filler -/

theorem Filler.of_blanks (h : ∀ c ∈ text, isBlank c = true) (hgap : Filler rest gap) :
    Filler rest (text ++ gap) := by
  induction text with
  | nil => exact hgap
  | cons c text ih =>
    rw [List.forall_mem_cons] at h
    exact .blank h.1 (ih h.2)

/-- The text ends inside a comment. -/
theorem fillerFrom_end (comment : Bool) : FillerFrom comment [] [] := by
  cases comment with
  | true => exact @Filler.comment [] [] [] List.not_mem_nil (by simp) .nil
  | false => exact .nil

/-- A line feed ends a comment. -/
theorem FillerFrom.lineFeed (h : FillerFrom false rest gap) : FillerFrom true rest ('\n' :: gap) :=
  @Filler.comment rest [] ('\n' :: gap) List.not_mem_nil (by simp) (.blank rfl h)

/-- Any other character belongs to it. -/
theorem FillerFrom.cons_comment (h : FillerFrom true rest gap) (hc : c ≠ '\n') :
    FillerFrom true rest (c :: gap) := by
  generalize htext : (if true then '#' :: gap else gap) = text at h
  cases h with
  | blank hblank _ =>
    cases htext
    cases hblank
  | @comment body gap hbody hend hgap =>
    cases htext
    exact @Filler.comment rest (c :: body) gap (by simp [hbody, Ne.symm hc]) hend hgap

/-! ## What is skipped -/

theorem exists_filler_of_skipLayoutFrom (comment : Bool) (text : List Char) :
    ∃ gap, text = gap ++ skipLayoutFrom comment text ∧
      FillerFrom comment (skipLayoutFrom comment text) gap := by
  -- The induction goes through both states of the scan: a number sign opens a comment, a line feed
  -- ends it.
  induction text generalizing comment with
  | nil => exact ⟨[], rfl, fillerFrom_end comment⟩
  | cons c text ih =>
    rw [skipLayoutFrom]
    cases comment with
    | true =>
      rw [if_pos rfl]
      obtain ⟨gap, htext, hgap⟩ := ih (c != '\n')
      refine ⟨c :: gap, congrArg (c :: ·) htext, ?_⟩
      by_cases hc : c = '\n'
      · subst hc
        exact hgap.lineFeed
      · rw [bne_iff_ne.mpr hc] at hgap ⊢
        exact hgap.cons_comment hc
    | false =>
      rw [if_neg Bool.false_ne_true]
      split
      · next hspace =>
        obtain ⟨gap, htext, hgap⟩ := ih false
        exact ⟨c :: gap, congrArg (c :: ·) htext, .blank (isBlank_of_isSpace hspace) hgap⟩
      · split
        · next hsign =>
          obtain ⟨gap, htext, hgap⟩ := ih true
          exact ⟨'#' :: gap, by rw [hsign]; exact congrArg ('#' :: ·) htext, hgap⟩
        · exact ⟨[], rfl, .nil⟩

/-- What is skipped as layout is filler in front of what is left. -/
theorem exists_filler_of_skipLayout (h : skipLayout text = rest) :
    ∃ gap, text = gap ++ rest ∧ Filler rest gap :=
  h ▸ exists_filler_of_skipLayoutFrom false text

end Cookbook.Text
