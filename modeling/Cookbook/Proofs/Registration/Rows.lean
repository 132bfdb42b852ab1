import Cookbook.Proofs.Registration.Groups
import Cookbook.Proofs.Text.Layout
import Cookbook.Proofs.Text.QuotedLiteral

/-!
# Rows of tokens

The scan for structural characters and the readers of groups and values pass over comments, literals
and brackets on their own. A row is a text that all of them pass over in the same way: it ends
outside of comments and literals, and it closes the brackets that it is said to close.

## Main definitions

* `Row`: a row in front of a text, with the brackets that it closes.

## Main results

* `Row.scanOwed`, `Row.takeOwed`: the scan and the reader of groups pass over a row.
* `matchingClose?_row`: the bracket in front of a row is closed behind it.
* `row_of_takeOwed`: what the reader of groups takes is a row, if no backslash is in it.
-/

namespace Cookbook

open Cookbook.Text

/-! ## Rows -/

/-- A character that stands for itself wherever no comment and no literal is open. -/
def isPlain (c : Char) : Bool :=
  !(c == '#' || isQuote c || isOpening c || isClosing c)

/-- `Row comment owed text rest`: the text, with `rest` behind it, closes the brackets that are owed
in this order and all that it opens, and it ends outside of comments and literals. `comment` tells
whether it starts inside a comment. -/
inductive Row : Bool → List Char → List Char → List Char → Prop where
  | nil {rest : List Char} : Row false [] [] rest
  | comment {c : Char} {owed text rest : List Char} : c ≠ '\n' → Row true owed text rest →
      Row true owed (c :: text) rest
  | sign {owed text rest : List Char} : Row true owed text rest → Row false owed ('#' :: text) rest
  | plain {comment : Bool} {c : Char} {owed text rest : List Char} :
      (comment = true → c = '\n') → isPlain c = true → Row false owed text rest →
      Row comment owed (c :: text) rest
  | literal {value taken owed text rest : List Char} :
      literal (taken ++ (text ++ rest)) = .done value (text ++ rest) →
      isTorn taken = false → Row false owed text rest → Row false owed (taken ++ text) rest
  | opens {c : Char} {owed text rest : List Char} : isOpening c = true →
      Row false (closing c :: owed) text rest → Row false owed (c :: text) rest
  | closes {c : Char} {owed text rest : List Char} : isClosing c = true →
      Row false owed text rest → Row false (c :: owed) (c :: text) rest

variable {comment : Bool} {c : Char} {owed others text other rest more gap : List Char}

namespace Row

/-- Outside of a comment a plain character may stand anywhere. -/
theorem code (hc : isPlain c = true) (h : Row false owed text rest) :
    Row false owed (c :: text) rest :=
  .plain (fun h => Bool.noConfusion h) hc h

/-- Rows one after the other are a row. -/
theorem append (h : Row comment owed text (other ++ rest)) (hother : Row false others other rest) :
    Row comment (owed ++ others) (text ++ other) rest := by
  -- A row ends outside of comments and literals, so the other one can start there.
  generalize htail : other ++ rest = tail at h
  induction h with
  | nil => exact hother
  | comment hc _ ih => exact .comment hc (ih htail)
  | sign _ ih => exact .sign (ih htail)
  | plain hline hc _ ih => exact .plain hline hc (ih htail)
  | @literal value taken owed text _ hliteral htorn _ ih =>
    rw [List.append_assoc]
    have hliteral : Text.literal (taken ++ (text ++ other ++ rest)) =
        .done value (text ++ other ++ rest) := by
      rwa [List.append_assoc, htail]
    exact .literal hliteral htorn (ih htail)
  | opens hc _ ih => exact .opens hc (ih htail)
  | closes hc _ ih => exact .closes hc (ih htail)

end Row

/-! ## Tokens as rows -/

theorem isPlain_of_isSpace (h : isSpace c = true) : isPlain c = true := by
  have hcases : c = ' ' ∨ c = '\t' ∨ c = '\r' ∨ c = '\n' := by
    simpa [isSpace, or_assoc] using h
  rcases hcases with rfl | rfl | rfl | rfl <;> decide

theorem row_comment {body : List Char} (h : '\n' ∉ body) (htext : Row false [] text rest) :
    Row true [] (body ++ '\n' :: text) rest := by
  -- The comment lasts up to the line feed, which is a plain character outside of it.
  induction body with
  | nil => exact .plain (fun _ => rfl) (by decide) htext
  | cons c body ih =>
    rw [List.mem_cons, not_or] at h
    exact .comment (Ne.symm h.1) (ih h.2)

theorem row_gap (h : IsGap gap) (rest : List Char) : Row false [] gap rest := by
  induction h with
  | nil => exact .nil
  | space hc _ ih => exact .code (isPlain_of_isSpace hc) ih
  | comment hbody _ ih => exact .sign (row_comment hbody ih)

theorem row_plain (h : ∀ c ∈ text, isPlain c = true) (rest : List Char) :
    Row false [] text rest := by
  induction text with
  | nil => exact .nil
  | cons c text ih =>
    rw [List.forall_mem_cons] at h
    exact .code h.1 (ih h.2)

theorem isTorn_quoted (value : List Char) : isTorn (quoted value) = false := by
  have hopen : Delimiter.open? (quoted value ++ []) =
      some (⟨'"', false⟩, value.flatMap escaped ++ ['"']) := open?_quoted (by simp)
  rw [List.append_nil] at hopen
  simp [isTorn, hopen]

theorem row_quoted (value : List Char) (h : rest.head? ≠ some '"') :
    Row false [] (quoted value) rest := by
  have hrow : Row false [] (quoted value ++ []) rest :=
    .literal (literal_quoted h) (isTorn_quoted value) .nil
  rwa [List.append_nil] at hrow

theorem isClosing_closing (c : Char) : isClosing (closing c) = true := by
  unfold closing
  split
  · decide
  · split <;> decide

/-- A row in brackets. -/
theorem Row.group (hc : isOpening c = true) (h : Row false [] text (closing c :: rest)) :
    Row false [] (c :: text ++ [closing c]) rest :=
  .opens hc (h.append (.closes (isClosing_closing c) .nil))

/-! ## The scan -/

theorem keep_keep (text : List Char) (taken : Option (List Char × List Char)) :
    keep text (keep other taken) = keep (text ++ other) taken := by
  cases taken with
  | none => rfl
  | some taken => simp [keep]

@[simp] theorem keep_nil (taken : Option (List Char × List Char)) : keep [] taken = taken := by
  cases taken <;> rfl

theorem isClosing_of_isOpening (h : isOpening c = true) : isClosing c = false := by
  rcases eq_of_isOpening h with rfl | rfl | rfl <;> decide

theorem of_isPlain (h : isPlain c = true) :
    c ≠ '#' ∧ isQuote c = false ∧ isOpening c = false ∧ isClosing c = false := by
  simpa [isPlain, and_assoc] using h

/-- What the scan and the readers need to know of a character after a comment, or in none. -/
theorem not_comment (hline : comment = true → c = '\n') : (comment && c != '\n') = false := by
  cases comment with
  | false => rfl
  | true => simp [hline rfl]

/-- The scan passes over a row. -/
theorem Row.scanOwed (h : Row comment owed text rest) (depth : Nat) :
    scanOwed comment (owed.length + (depth + 1)) (text ++ rest) =
      keep text (Text.scanOwed false (depth + 1) rest) := by
  -- The scan counts the brackets that the row lists. One more is owed behind the row, so that the
  -- scan does not end within it.
  induction h with
  | nil => rw [List.length_nil, Nat.zero_add, List.nil_append, keep_nil]
  | @comment c owed text rest hc _ ih =>
    rw [← Nat.add_assoc] at ih ⊢
    rw [List.cons_append, Text.scanOwed]
    simp [hc, ih, keep_keep]
  | @sign owed text rest _ ih =>
    rw [← Nat.add_assoc] at ih ⊢
    rw [List.cons_append, Text.scanOwed]
    simp [isClosing, ih, keep_keep]
  | @plain comment c owed text rest hline hc _ ih =>
    obtain ⟨hhash, hquote, hopening, hclosing⟩ := of_isPlain hc
    rw [← Nat.add_assoc] at ih ⊢
    rw [List.cons_append, Text.scanOwed]
    simp [not_comment hline, hhash, hquote, hopening, hclosing, ih, keep_keep]
  | @literal value taken owed text rest hliteral htorn _ ih =>
    rw [← Nat.add_assoc] at ih ⊢
    rw [List.append_assoc, scanOwed_literal hliteral htorn, ih, keep_keep]
  | @opens c owed text rest hc _ ih =>
    obtain ⟨hhash, hquote⟩ := of_isOpening hc
    have hclosing : isClosing c = false := isClosing_of_isOpening hc
    rw [List.length_cons, Nat.add_right_comm] at ih
    rw [← Nat.add_assoc] at ih ⊢
    rw [List.cons_append, Text.scanOwed]
    simp [hhash, hquote, hclosing, hc, ih, keep_keep]
  | @closes c owed text rest hc _ ih =>
    rw [List.length_cons, Nat.add_right_comm, List.cons_append, Text.scanOwed]
    simp [hc, ih, keep_keep]

/-- The bracket in front of a row is closed by the bracket behind it. -/
theorem matchingClose?_row (hc : isOpening c = true) (h : Row false [] text (closing c :: rest)) :
    matchingClose? (c :: (text ++ closing c :: rest)) = some (byteSize text + 1) := by
  have hopening : c.utf8Size = 1 := by
    rcases eq_of_isOpening hc with rfl | rfl | rfl <;> rfl
  have hclosing : isClosing (closing c) = true := isClosing_closing c
  have hsize : (closing c).utf8Size = 1 := by simpa using (of_isClosing hclosing).2.2.2
  -- Behind the row the count is one, and its bracket brings it to nothing.
  have hlast : scanOwed false 1 (closing c :: rest) = some ([closing c], rest) := by
    rw [scanOwed]
    simp [hclosing, scanOwed, keep]
  have hscan := h.scanOwed 0
  rw [List.length_nil, Nat.zero_add, Nat.zero_add, hlast] at hscan
  rw [matchingClose?_eq hc, scanGroup?, if_pos hc, hscan]
  simp [keep, lastOf, hopening, hsize]

/-! ## The reader of groups -/

/-- The reader of groups passes over a literal. -/
theorem takeOwed_literal {value : List Char} (h : literal (text ++ rest) = .done value rest)
    (close : Char) :
    takeOwed false (close :: others) (text ++ rest) =
      keep text (takeOwed false (close :: others) rest) := by
  have htaken : front (text ++ rest) rest = text := front_append text rest
  obtain ⟨c, tail, htext, hquote, hclosing, hhash⟩ := exists_quote_of_literal h
  rw [htext] at h htaken ⊢
  rw [takeOwed]
  simp only [Bool.false_and, Bool.false_eq_true, if_false, hclosing, hhash, hquote, if_true]
  split
  · next hdone =>
    cases hdone.symm.trans h
    rw [htaken]
  · next hstuck => cases hstuck.symm.trans h

/-- The reader of groups passes over a row. -/
theorem Row.takeOwed (h : Row comment owed text rest) (close : Char) (others : List Char) :
    takeOwed comment (owed ++ close :: others) (text ++ rest) =
      keep text (Cookbook.takeOwed false (close :: others) rest) := by
  -- Something is owed behind the row, so the reader does not end within it.
  have hcons : ∀ owed : List Char, ∃ a more, owed ++ close :: others = a :: more :=
    fun owed => List.exists_cons_of_ne_nil (by simp)
  induction h with
  | nil => rw [List.nil_append, List.nil_append, keep_nil]
  | @comment c owed text rest hc _ ih =>
    obtain ⟨a, more, hmore⟩ := hcons owed
    rw [hmore] at ih ⊢
    rw [List.cons_append, Cookbook.takeOwed]
    simp [hc, ih, keep_keep]
  | @sign owed text rest _ ih =>
    obtain ⟨a, more, hmore⟩ := hcons owed
    rw [hmore] at ih ⊢
    rw [List.cons_append, Cookbook.takeOwed]
    simp [isClosing, ih, keep_keep]
  | @plain comment c owed text rest hline hc _ ih =>
    obtain ⟨hhash, hquote, hopening, hclosing⟩ := of_isPlain hc
    obtain ⟨a, more, hmore⟩ := hcons owed
    rw [hmore] at ih ⊢
    rw [List.cons_append, Cookbook.takeOwed]
    simp [not_comment hline, hhash, hquote, hopening, hclosing, ih, keep_keep]
  | @literal value taken owed text rest hliteral htorn _ ih =>
    obtain ⟨a, more, hmore⟩ := hcons owed
    rw [hmore] at ih ⊢
    rw [List.append_assoc, takeOwed_literal hliteral, ih, keep_keep]
  | @opens c owed text rest hc _ ih =>
    obtain ⟨hhash, hquote⟩ := of_isOpening hc
    have hclosing : isClosing c = false := isClosing_of_isOpening hc
    obtain ⟨a, more, hmore⟩ := hcons owed
    rw [List.cons_append, hmore] at ih
    rw [List.cons_append, hmore, Cookbook.takeOwed]
    simp [hhash, hquote, hclosing, hc, ih, keep_keep]
  | @closes c owed text rest hc _ ih =>
    rw [List.cons_append, List.cons_append, Cookbook.takeOwed]
    simp [hc, ih, keep_keep]

/-- A row in brackets is a group. -/
theorem takeGroup_row (hc : isOpening c = true) (h : Row false [] text (closing c :: rest)) :
    takeGroup (c :: (text ++ closing c :: rest)) = some (c :: text ++ [closing c], rest) := by
  have hlast : takeOwed false [closing c] (closing c :: rest) = some ([closing c], rest) := by
    rw [takeOwed]
    simp [isClosing_closing, takeOwed, keep]
  have htaken := h.takeOwed (closing c) []
  rw [List.nil_append, hlast] at htaken
  rw [takeGroup, if_pos hc, htaken]
  rfl

/-- A character after a comment, or in none, that is no line feed stands in no comment. -/
theorem eq_false_of_ne_lineFeed (hcomment : ¬(comment && c != '\n') = true) (hc : c ≠ '\n') :
    comment = false := by
  cases comment with
  | false => rfl
  | true => exact absurd (by simpa using hcomment) hc

/-- Where a bracket is owed, a text does not end. -/
theorem ne_nil_of_takeOwed {close : Char}
    (h : takeOwed comment (close :: others) text = some (more, rest)) : text ≠ [] := by
  rintro rfl
  rw [takeOwed] at h
  cases h

/-- A group is taken in the same way from a text that goes on. -/
theorem takeOwed_append {input taken : List Char} (more : List Char)
    (h : takeOwed comment owed input = some (taken, rest)) :
    takeOwed comment owed (input ++ more) = some (taken, rest ++ more) := by
  fun_induction takeOwed comment owed input generalizing taken with
  | case1 comment input =>
    cases h
    rw [takeOwed]
  | case2 | case5 | case8 => cases h
  | case7 comment close others c text hc hclosing hhash hquote value after hliteral _ ih =>
    obtain ⟨inner, hinner, rfl⟩ := keep_eq_some h
    obtain rfl := eq_false_of_quote hc hquote
    -- Only a literal looks at what follows it, and the text does not end with it.
    obtain ⟨w, -, htext⟩ := exists_append_of_literal hliteral
    have hlong := literal_append more hliteral (ne_nil_of_takeOwed hinner)
    rw [htext, List.append_assoc] at hlong
    rw [htext, front_append, List.append_assoc, takeOwed_literal hlong, ih hinner]
    rfl
  | case3 comment close others c text hc ih =>
    obtain ⟨inner, hinner, rfl⟩ := keep_eq_some h
    rw [List.cons_append, takeOwed]
    simp only [hc, if_true, ih hinner]
    rfl
  | case4 comment others c text hc hclosing ih =>
    obtain ⟨inner, hinner, rfl⟩ := keep_eq_some h
    rw [List.cons_append, takeOwed]
    simp only [hc, hclosing, if_true, if_false, Bool.false_eq_true, ih hinner]
    rfl
  | case6 comment close others text hc hclosing ih =>
    obtain ⟨inner, hinner, rfl⟩ := keep_eq_some h
    rw [List.cons_append, takeOwed]
    simp only [hc, hclosing, if_true, if_false, Bool.false_eq_true, ih hinner]
    rfl
  | case9 comment close others c text hc hclosing hhash hquote hopening ih =>
    obtain ⟨inner, hinner, rfl⟩ := keep_eq_some h
    rw [List.cons_append, takeOwed]
    simp only [hc, hclosing, hhash, hquote, hopening, if_true, if_false, Bool.false_eq_true,
      ih hinner]
    rfl
  | case10 comment close others c text hc hclosing hhash hquote hopening ih =>
    obtain ⟨inner, hinner, rfl⟩ := keep_eq_some h
    rw [List.cons_append, takeOwed]
    simp only [hc, hclosing, hhash, hquote, hopening, if_false, Bool.false_eq_true, ih hinner]
    rfl

/-- What the reader of groups takes is a row, if there is no backslash in it. -/
theorem row_of_takeOwed {input taken : List Char} (more : List Char)
    (h : takeOwed comment owed input = some (taken, rest)) (hslash : '\\' ∉ taken)
    (hcomment : owed = [] → comment = false) : Row comment owed taken (rest ++ more) := by
  fun_induction takeOwed comment owed input generalizing taken with
  | case1 comment input =>
    cases h
    rw [hcomment rfl]
    exact .nil
  | case2 | case5 | case8 => cases h
  | case3 comment close others c text hc ih =>
    obtain ⟨inner, hinner, rfl⟩ := keep_eq_some h
    obtain ⟨rfl, hline⟩ : comment = true ∧ c ≠ '\n' := by simpa using hc
    exact .comment hline (ih hinner (by simp_all) (by simp))
  | case4 comment others c text hc hclosing ih =>
    obtain ⟨inner, hinner, rfl⟩ := keep_eq_some h
    obtain rfl : comment = false := eq_false_of_ne_lineFeed hc (by rintro rfl; cases hclosing)
    exact .closes hclosing (ih hinner (by simp_all) fun _ => rfl)
  | case6 comment close others text hc hclosing ih =>
    obtain ⟨inner, hinner, rfl⟩ := keep_eq_some h
    obtain rfl : comment = false := by simpa using hc
    exact .sign (ih hinner (by simp_all) (by simp))
  | case7 comment close others c text hc hclosing hhash hquote value after hliteral _ ih =>
    obtain ⟨inner, hinner, rfl⟩ := keep_eq_some h
    obtain rfl := eq_false_of_quote hc hquote
    obtain ⟨w, -, htext⟩ := exists_append_of_literal hliteral
    rw [htext, front_append] at hslash ⊢
    rw [List.mem_append, not_or] at hslash
    have hlonger : literal (w ++ (inner ++ (rest ++ more))) = .done value (inner ++ (rest ++ more)) := by
      -- A bracket is owed behind the literal, so the text does not end with it.
      have hlong := literal_append more hliteral (ne_nil_of_takeOwed hinner)
      rw [htext, eq_append_of_takeOwed hinner] at hlong
      simpa only [List.append_assoc] using hlong
    exact .literal hlonger (isTorn_of_not_mem hslash.1) (ih hinner hslash.2 (by simp))
  | case9 comment close others c text hc hclosing hhash hquote hopening ih =>
    obtain ⟨inner, hinner, rfl⟩ := keep_eq_some h
    obtain rfl : comment = false := eq_false_of_ne_lineFeed hc (by rintro rfl; cases hopening)
    exact .opens hopening (ih hinner (by simp_all) (by simp))
  | case10 comment close others c text hc hclosing hhash hquote hopening ih =>
    obtain ⟨inner, hinner, rfl⟩ := keep_eq_some h
    have hplain : isPlain c = true := by simp [isPlain, hclosing, hhash, hquote, hopening]
    exact .plain (by simpa using hc) hplain (ih hinner (by simp_all) (by simp))

end Cookbook
