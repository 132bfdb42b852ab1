import Cookbook.Proofs.Artifact.Blocks

/-!
# Lines of blocks

What a line of a block is depends on the literal that is open in front of it and on what it starts
with, behind its blanks. Neither the kind of a line nor the literal that it leaves open changes with
the blanks around it, so that a line keeps both when its indent changes.

## Main definitions

* `Surrounds`: a line is a text with blanks around it.
* `HasKind`: a line of a block and its kind.
* `Classified`: lines with the kinds that they have one behind the other.

## Main results

* `Surrounds.kindOf_eq`, `Surrounds.openQuote?_eq`: what does not depend on the blanks around a line.
* `classified_blockLines`: the lines of a block have their kinds.
* `Classified.blockLines_append`: lines with their kinds are those of a block.
-/

namespace Cookbook.Body

open Cookbook.Text

variable {line text : List Char} {c : Char} {kind : LineKind} {quote? : Option Char} {least : Nat}
  {inside : Bool}

/-! ## Blanks around a line -/

/-- A line is a text with blanks around it. -/
def Surrounds (line text : List Char) : Prop :=
  ∃ front back, line = front ++ (text ++ back) ∧ (∀ c ∈ front, isBlank c = true) ∧
    ∀ c ∈ back, isBlank c = true

theorem Surrounds.not_mem (h : Surrounds line text) (hc : c ∉ line) : c ∉ text := by
  obtain ⟨front, back, rfl, -⟩ := h
  exact fun hmem => hc (by simp [hmem])

theorem isBlank_of_isIndent (h : isIndent c = true) : isBlank c = true := by
  have hc : c = ' ' ∨ c = '\t' := by simpa [isIndent] using h
  rcases hc with rfl | rfl <;> rfl

/-- The first character of a text is still there when its end is trimmed, unless nothing is. -/
theorem head?_trimEnd (h : c ∈ (trimEnd text).head?) : text.head? = some c := by
  obtain ⟨back, hback, -⟩ := exists_trimEnd_append text
  rw [← hback, List.head?_append, Option.mem_def.mp h, Option.some_or]

/-- Blanks behind a text are trimmed. -/
theorem trim_append_blanks {blanks : List Char} (h : ∀ c ∈ blanks, isBlank c = true)
    (text : List Char) : trim (text ++ blanks) = trim text := by
  have hblanks : trimStart blanks = [] := List.dropWhile_eq_nil_iff.mpr h
  unfold trim
  rw [trimStart, List.dropWhile_append]
  split
  · next hempty =>
    rw [show blanks.dropWhile isBlank = [] from hblanks, trimStart, List.isEmpty_iff.mp hempty]
  · rw [trimEnd, dropEndWhile, List.reverse_append, List.dropWhile_append_of_pos]
    · rfl
    · exact fun c hc => h c (List.mem_reverse.mp hc)

theorem surrounds_trim (text : List Char) : Surrounds text (trim text) := by
  obtain ⟨back, hback, hblank⟩ := exists_trimEnd_append (trimStart text)
  refine ⟨text.takeWhile isBlank, back, ?_, fun _ => List.mem_takeWhile_imp, hblank⟩
  rw [trim, hback, takeWhile_append_trimStart]

theorem isBlank_head?_trim (h : c ∈ (trim text).head?) : isBlank c = false := by
  have hhead := List.head?_dropWhile_not isBlank text
  rw [show text.dropWhile isBlank = trimStart text from rfl, head?_trimEnd h] at hhead
  simpa using hhead

/-- What a line is does not depend on the blanks around it. -/
theorem Surrounds.kindOf_eq (h : Surrounds line text) (inside : Bool) :
    kindOf inside line = kindOf inside text := by
  obtain ⟨front, back, rfl, hfront, hback⟩ := h
  have hstart : trimStart (front ++ (text ++ back)) = trimStart (text ++ back) :=
    List.dropWhile_append_of_pos hfront
  have hend : trimStart (text ++ back) =
      if (trimStart text).isEmpty then trimStart back else trimStart text ++ back :=
    List.dropWhile_append
  have hnil : trimStart back = [] := List.dropWhile_eq_nil_iff.mpr hback
  unfold kindOf
  rw [hstart, hend, hnil]
  cases trimStart text with
  | nil => rfl
  | cons c rest =>
    by_cases hc : c = '#'
    · subst hc
      rfl
    · simp [hc]

/-- Lines behind which a scan is in the same state leave the same literal open. -/
theorem openQuote?_congr {other : List Char} (hquote : ∀ q ∈ quote?, isQuote q = true)
    (h : ∀ mode : Mode, mode.WellQuoted → (scan mode 0 line).mode = (scan mode 0 other).mode) :
    openQuote? quote? line = openQuote? quote? other := by
  unfold openQuote?
  dsimp only
  cases quote? with
  | none => rw [h .code wellQuoted_code]
  | some q => rw [h (.tripled q) hquote]

/-- Which literal a line leaves open does not depend on the blanks around it. -/
theorem Surrounds.openQuote?_eq (h : Surrounds line text) (hline : '\n' ∉ line)
    (hquote : ∀ q ∈ quote?, isQuote q = true) : openQuote? quote? line = openQuote? quote? text := by
  obtain ⟨front, back, rfl, hfront, hback⟩ := h
  rw [List.mem_append, List.mem_append, not_or, not_or] at hline
  refine openQuote?_congr hquote fun mode hmode => ?_
  rw [mode_scan_blanks_append hmode hfront hline.1, mode_scan_append_blanks hmode hback hline.2.2]

theorem forall_isBlank_of_kindOf (h : kindOf inside line = .blank) : ∀ c ∈ line, isBlank c = true := by
  unfold kindOf at h
  split at h
  · cases h
  · split at h
    · next hnil => exact List.dropWhile_eq_nil_iff.mp hnil
    · cases h
    · cases h

theorem exists_of_kindOf_comment (h : kindOf inside line = .comment) :
    ∃ rest, Surrounds line ('#' :: rest) := by
  unfold kindOf at h
  split at h
  · cases h
  · split at h
    · cases h
    · next rest hrest =>
      refine ⟨rest, line.takeWhile isBlank, [], ?_, ?_, List.forall_mem_nil _⟩
      · rw [List.append_nil, ← hrest, takeWhile_append_trimStart]
      · exact fun _ => List.mem_takeWhile_imp
    · cases h

/-! ## Kinds of lines -/

/-- A line as blocks have it, of this kind if `quote?` is open in front of it. -/
structure HasKind (quote? : Option Char) (kind : LineKind) (line : List Char) : Prop where
  isQuote : ∀ q ∈ quote?, isQuote q = true
  noLineFeed : '\n' ∉ line
  noReturn : ∀ c ∈ line.getLast?, c ≠ '\r'
  kind_eq : kindOf quote?.isSome line = kind

theorem hasKind_dropReturns (hquote : ∀ q ∈ quote?, isQuote q = true) (hline : '\n' ∉ line) :
    HasKind quote? (kindOf quote?.isSome (dropReturns line)) (dropReturns line) where
  isQuote := hquote
  noLineFeed hmem := hline (by
    rw [← dropEndWhile_append (· == '\r') line]
    exact List.mem_append_left _ hmem)
  noReturn c hc := by simpa using eq_false_of_mem_getLast? c hc
  kind_eq := rfl

/-- Blank lines and comments open and close nothing. -/
theorem HasKind.openQuote?_of_idle (h : HasKind quote? kind line)
    (hidle : kind = .blank ∨ kind = .comment) : openQuote? quote? line = quote? := by
  have hkind := h.kind_eq
  cases quote? with
  | some q =>
    -- Inside a literal there are no such lines.
    subst hkind
    rcases hidle with hidle | hidle <;> cases hidle
  | none =>
    rw [Option.isSome_none] at hkind
    rcases hidle with rfl | rfl
    · have hblank : Surrounds line [] :=
        ⟨line, [], by simp, forall_isBlank_of_kindOf hkind, List.forall_mem_nil _⟩
      rw [hblank.openQuote?_eq h.noLineFeed h.isQuote]
      rfl
    · obtain ⟨rest, hrest⟩ := exists_of_kindOf_comment hkind
      have hcomment : (scan .code 0 ('#' :: rest)).mode = .comment := by
        rw [show scan .code 0 ('#' :: rest) = scan .comment (0 + byteSize ['#']) rest from
          scan_hash 0 rest]
        exact mode_scan_comment (fun hmem => hrest.not_mem h.noLineFeed (by simp [hmem])) _
      rw [hrest.openQuote?_eq h.noLineFeed h.isQuote, openQuote?]
      simp only [hcomment]

/-- A line without the block's indent is the line without some blanks. -/
theorem HasKind.surrounds (h : HasKind quote? kind line)
    (hleast : kind = .code → least ≤ indentWidth line) :
    Surrounds line (dedent least (kind, line)) := by
  have hindent : ∀ {width}, width ≤ indentWidth line → ∀ c ∈ line.take width, isBlank c = true :=
    fun hwidth c hc => isBlank_of_isIndent (isIndent_of_mem_take hwidth c hc)
  cases kind with
  | blank =>
    exact ⟨line, [], by simp [dedent], forall_isBlank_of_kindOf h.kind_eq, List.forall_mem_nil _⟩
  | code =>
    obtain ⟨back, hback, hblank⟩ := exists_trimEnd_append (line.drop least)
    refine ⟨line.take least, back, ?_, hindent (hleast rfl), hblank⟩
    rw [dedent, hback, List.take_append_drop]
  | comment | inLiteral =>
    exact ⟨line.take (min (indentWidth line) least), [], by simp [dedent],
      hindent (Nat.min_le_left _ _), List.forall_mem_nil _⟩

theorem HasKind.openQuote?_dedent (h : HasKind quote? kind line)
    (hleast : kind = .code → least ≤ indentWidth line) :
    openQuote? quote? (dedent least (kind, line)) = openQuote? quote? line :=
  ((h.surrounds hleast).openQuote?_eq h.noLineFeed h.isQuote).symm

theorem noReturn_dedent (h : ∀ c ∈ line.getLast?, c ≠ '\r') :
    ∀ c ∈ (dedent least (kind, line)).getLast?, c ≠ '\r' := by
  cases kind with
  | blank => exact fun c hc => by cases hc
  | code =>
    rintro c hc rfl
    cases eq_false_of_mem_getLast? '\r' hc
  | comment | inLiteral =>
    intro c hc
    rw [dedent, List.getLast?_drop] at hc
    split at hc
    · cases hc
    · exact h c hc

/-! ## Lines one behind the other -/

/-- Lines with the kinds that they have in a block, if `quote?` is open in front of them. -/
inductive Classified : Option Char → List (LineKind × List Char) → Prop where
  | nil {quote? : Option Char} : Classified quote? []
  | cons {quote? : Option Char} {kind : LineKind} {line : List Char}
      {lines : List (LineKind × List Char)} (hline : HasKind quote? kind line)
      (hlines : Classified (openQuote? quote? line) lines) :
      Classified quote? ((kind, line) :: lines)

/-- The quote of the triple-quoted literal that is open behind lines; `quote?` is the one that is
open in front of them. -/
def openBehind (quote? : Option Char) (lines : List (List Char)) : Option Char :=
  lines.foldl openQuote? quote?

variable {lines blanks : List (LineKind × List Char)} {raws : List (List Char)} {n : Nat}

theorem Classified.exists_hasKind (h : Classified quote? lines) :
    ∀ line ∈ lines, ∃ quote?, HasKind quote? line.1 line.2 := by
  induction h with
  | nil => exact List.forall_mem_nil _
  | cons hline _ ih => exact List.forall_mem_cons.mpr ⟨⟨_, hline⟩, ih⟩

/-- A line goes into a block with its kind, unless it is code that ends the block. -/
theorem HasKind.blockLines_cons (h : HasKind quote? kind (dropReturns line))
    (hdeep : kind = .code → n < indentWidth (dropReturns line)) (rest : List (List Char)) :
    blockLines n quote? (line :: rest) =
      (kind, dropReturns line) :: blockLines n (openQuote? quote? (dropReturns line)) rest := by
  rw [blockLines]
  simp only [h.kind_eq]
  cases kind with
  | blank => simp only [h.openQuote?_of_idle (.inl rfl)]
  | comment => simp only [h.openQuote?_of_idle (.inr rfl)]
  | inLiteral => rfl
  | code => simp only [if_neg (Nat.not_le.mpr (hdeep rfl))]

/-- The lines of a block have their kinds. -/
theorem classified_blockLines (hquote : ∀ q ∈ quote?, isQuote q = true)
    (hlines : ∀ line ∈ raws, '\n' ∉ line) : Classified quote? (blockLines n quote? raws) := by
  induction raws generalizing quote? with
  | nil => exact .nil
  | cons raw raws ih =>
    rw [List.forall_mem_cons] at hlines
    have hkind := hasKind_dropReturns hquote hlines.1
    by_cases hdeep : kindOf quote?.isSome (dropReturns raw) = .code →
        n < indentWidth (dropReturns raw)
    · rw [hkind.blockLines_cons hdeep]
      exact .cons hkind (ih (isQuote_openQuote? hquote _) hlines.2)
    · obtain ⟨hcode, hends⟩ := Classical.not_imp.mp hdeep
      rw [blockLines]
      simp only [hcode, if_pos (Nat.not_lt.mp hends)]
      exact .nil

theorem dropReturns_eq_self (h : ∀ c ∈ line.getLast?, c ≠ '\r') : dropReturns line = line :=
  dropEndWhile_eq_self fun c hc => by simpa using h c hc

/-- Lines with their kinds are a block of which the code is deep enough. -/
theorem Classified.blockLines_append (h : Classified quote? lines)
    (hdeep : ∀ line ∈ lines, line.1 = .code → n < indentWidth line.2) (others : List (List Char)) :
    blockLines n quote? (lines.map Prod.snd ++ others) =
      lines ++ blockLines n (openBehind quote? (lines.map Prod.snd)) others := by
  induction h with
  | nil => rfl
  | @cons quote? kind line lines hline _ ih =>
    rw [List.forall_mem_cons] at hdeep
    have hreturns := dropReturns_eq_self hline.noReturn
    rw [List.map_cons, List.cons_append,
      HasKind.blockLines_cons (hreturns.symm ▸ hline) (hreturns.symm ▸ hdeep.1), hreturns,
      ih hdeep.2]
    rfl

theorem Classified.of_append (h : Classified quote? (blanks ++ lines)) :
    Classified quote? blanks ∧ Classified (openBehind quote? (blanks.map Prod.snd)) lines := by
  induction blanks generalizing quote? with
  | nil => exact ⟨.nil, h⟩
  | cons line blanks ih =>
    cases h with
    | cons hline hlines => exact ⟨.cons hline (ih hlines).1, (ih hlines).2⟩

/-- Behind blank lines the same literal is open. -/
theorem Classified.openBehind_of_blank (h : Classified quote? blanks)
    (hblank : ∀ line ∈ blanks, line.1 = .blank) : openBehind quote? (blanks.map Prod.snd) = quote? := by
  induction h with
  | nil => rfl
  | @cons quote? kind line blanks hline _ ih =>
    rw [List.forall_mem_cons] at hblank
    have hopen := hline.openQuote?_of_idle (.inl hblank.1)
    rw [hopen] at ih
    rw [List.map_cons, openBehind, List.foldl_cons, hopen]
    exact ih hblank.2

end Cookbook.Body
