import Cookbook.Text.Layout

/-!
# Gaps between tokens

A gap is what may stand between two tokens: white space and comments that end on their line. It is
defined here by its form, and skipping layout removes exactly such a gap.

## Main definitions

* `IsGap`: white space and comments.
* `IsLayout`: the same at the end of a text, where a comment may be open.

## Main results

* `skipLayout_gap`: a gap in front of any text is skipped.
* `skipLayout_gap_cons`: what follows a gap is left as it stands, unless it is layout itself.
* `exists_gap_of_skipLayout`: what is skipped in front of a character is a gap.
-/

namespace Cookbook.Text

/-- White space and comments, each comment up to the end of its line. -/
inductive IsGap : List Char → Prop where
  | nil : IsGap []
  | space {c : Char} {gap : List Char} : isSpace c = true → IsGap gap → IsGap (c :: gap)
  | comment {body gap : List Char} : '\n' ∉ body → IsGap gap →
      IsGap ('#' :: body ++ '\n' :: gap)

/-- A character with which a gap may start. -/
def startsGap (c : Char) : Bool :=
  isSpace c || c == '#'

variable {c : Char} {gap text rest : List Char}

namespace IsGap

theorem of_spaces (h : ∀ c ∈ text, isSpace c = true) : IsGap text := by
  induction text with
  | nil => exact .nil
  | cons c text ih =>
    rw [List.forall_mem_cons] at h
    exact .space h.1 (ih h.2)

theorem blank : IsGap [' '] :=
  .space rfl .nil

/-- A gap is empty or starts like one. -/
theorem eq_nil_or_cons (h : IsGap gap) :
    gap = [] ∨ ∃ c rest, gap = c :: rest ∧ startsGap c = true := by
  cases h with
  | nil => exact .inl rfl
  | space hc _ => exact .inr ⟨_, _, rfl, by simp [startsGap, hc]⟩
  | comment _ _ => exact .inr ⟨_, _, rfl, rfl⟩

end IsGap

/-! ## Skipping -/

theorem skipLayoutFrom_comment {body : List Char} (h : '\n' ∉ body) (rest : List Char) :
    skipLayoutFrom true (body ++ '\n' :: rest) = skipLayout rest := by
  induction body with
  -- The line feed ends the comment, and it is layout itself.
  | nil => rfl
  | cons c body ih =>
    rw [List.mem_cons, not_or] at h
    have hc : (c != '\n') = true := bne_iff_ne.mpr (Ne.symm h.1)
    rw [List.cons_append, skipLayoutFrom, if_pos rfl, hc]
    exact ih h.2

/-- A gap in front of any text is skipped. -/
theorem skipLayout_gap (h : IsGap gap) (rest : List Char) :
    skipLayout (gap ++ rest) = skipLayout rest := by
  induction h with
  | nil => rfl
  | @space c gap hc _ ih =>
    calc skipLayout (c :: gap ++ rest)
        = skipLayout (gap ++ rest) := by simp [skipLayout, skipLayoutFrom, hc]
      _ = skipLayout rest := ih
  | @comment body gap hbody _ ih =>
    calc skipLayout ('#' :: body ++ '\n' :: gap ++ rest)
        = skipLayoutFrom true (body ++ '\n' :: (gap ++ rest)) := by
          simp [skipLayout, skipLayoutFrom, isSpace]
      _ = skipLayout (gap ++ rest) := skipLayoutFrom_comment hbody _
      _ = skipLayout rest := ih

theorem skipLayout_cons (h : startsGap c = false) : skipLayout (c :: rest) = c :: rest := by
  rw [startsGap, Bool.or_eq_false_iff, beq_eq_false_iff_ne] at h
  simp [skipLayout, skipLayoutFrom, h]

/-- What follows a gap is left as it stands, unless it is layout itself. -/
theorem skipLayout_gap_cons (h : IsGap gap) (hc : startsGap c = false) :
    skipLayout (gap ++ c :: rest) = c :: rest := by
  rw [skipLayout_gap h, skipLayout_cons hc]

theorem skipLayout_eq_nil_of_gap (h : IsGap gap) : skipLayout gap = [] := by
  have := skipLayout_gap h []
  rwa [List.append_nil] at this

/-! ## What is skipped -/

/-- White space and comments; the last comment may be open. -/
def IsLayout (text : List Char) : Prop :=
  skipLayout text = []

/-- A gap that starts with a comment has that comment with another character in it. -/
theorem IsGap.comment_cons (h : IsGap ('#' :: gap)) (hc : c ≠ '\n') : IsGap ('#' :: c :: gap) := by
  generalize htext : '#' :: gap = text at h
  cases h with
  | nil => cases htext
  | space hspace _ =>
    cases htext
    cases hspace
  | @comment body gap hbody hgap =>
    cases htext
    exact @IsGap.comment (c :: body) gap (by simp [hbody, Ne.symm hc]) hgap

/-- What is skipped, with a number sign in front if a comment is open there, is a gap. -/
theorem exists_gap_of_skipLayoutFrom {comment : Bool}
    (h : skipLayoutFrom comment text = c :: rest) :
    ∃ gap, IsGap (if comment then '#' :: gap else gap) ∧ text = gap ++ c :: rest ∧
      startsGap c = false := by
  -- Whether a comment is open changes from one character to the next, so the statement is about
  -- both states: in a comment the gap is completed by the number sign in front.
  induction text generalizing comment with
  | nil => cases h
  | cons d text ih =>
    rw [skipLayoutFrom] at h
    cases comment with
    | true =>
      rw [if_pos rfl] at h
      obtain ⟨gap, hgap, rfl, hc⟩ := ih h
      refine ⟨d :: gap, ?_, rfl, hc⟩
      by_cases hd : d = '\n'
      · rw [hd, bne_self_eq_false, if_neg Bool.false_ne_true] at hgap
        rw [hd]
        exact .comment List.not_mem_nil hgap
      · rw [bne_iff_ne.mpr hd] at hgap
        exact hgap.comment_cons hd
    | false =>
      rw [if_neg Bool.false_ne_true] at h
      split at h
      · next hspace =>
        obtain ⟨gap, hgap, rfl, hc⟩ := ih h
        exact ⟨d :: gap, .space hspace hgap, rfl, hc⟩
      · next hspace =>
        split at h
        · next hsign =>
          obtain ⟨gap, hgap, rfl, hc⟩ := ih h
          exact ⟨d :: gap, hsign ▸ hgap, rfl, hc⟩
        · next hsign =>
          obtain ⟨rfl, rfl⟩ := List.cons.inj h
          exact ⟨[], .nil, rfl, by simpa [startsGap, hsign] using hspace⟩

/-- In front of what layout leaves stands a gap. -/
theorem exists_gap_of_skipLayout (h : skipLayout text = c :: rest) :
    ∃ gap, IsGap gap ∧ text = gap ++ c :: rest ∧ startsGap c = false :=
  exists_gap_of_skipLayoutFrom h

/-- Layout is a gap once a line feed ends it. -/
theorem isGap_of_skipLayoutFrom {comment : Bool} (h : skipLayoutFrom comment text = []) :
    IsGap (if comment then '#' :: (text ++ ['\n']) else text ++ ['\n']) := by
  -- As before, with the number sign in front for a comment that is open. The line feed behind the
  -- text closes the last one.
  induction text generalizing comment with
  | nil =>
    cases comment with
    | true => exact .comment List.not_mem_nil .nil
    | false => exact .space rfl .nil
  | cons d text ih =>
    rw [skipLayoutFrom] at h
    cases comment with
    | true =>
      rw [if_pos rfl] at h
      have hgap := ih h
      by_cases hd : d = '\n'
      · rw [hd, bne_self_eq_false, if_neg Bool.false_ne_true] at hgap
        rw [hd]
        exact @IsGap.comment [] (text ++ ['\n']) List.not_mem_nil hgap
      · rw [bne_iff_ne.mpr hd] at hgap
        exact hgap.comment_cons hd
    | false =>
      rw [if_neg Bool.false_ne_true] at h
      split at h
      · next hspace => exact .space hspace (ih h)
      · split at h
        · next hsign =>
          rw [hsign]
          exact ih h
        · cases h

theorem IsLayout.isGap (h : IsLayout text) : IsGap (text ++ ['\n']) :=
  isGap_of_skipLayoutFrom h

theorem IsLayout.startsGap (h : IsLayout text) : ∀ c ∈ text.head?, Text.startsGap c = true := by
  intro c hc
  cases text with
  | nil => cases hc
  | cons d text =>
    obtain rfl : d = c := by simpa using hc
    cases hstart : Text.startsGap d with
    | true => rfl
    | false =>
      rw [IsLayout, skipLayout_cons hstart] at h
      cases h

/-- What layout leaves of a text goes on in front of another text. -/
theorem skipLayout_append (h : skipLayout text = c :: rest) (more : List Char) :
    skipLayout (text ++ more) = c :: (rest ++ more) := by
  obtain ⟨gap, hgap, rfl, hc⟩ := exists_gap_of_skipLayout h
  rw [List.append_assoc, List.cons_append, skipLayout_gap_cons hgap hc]

end Cookbook.Text
