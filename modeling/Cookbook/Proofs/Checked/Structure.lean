import Cookbook.Proofs.Checked.Cuts
import Cookbook.Proofs.Text.ScannedGroup
import Cookbook.Proofs.Text.Structural

/-!
# The checked scan

The scan for structural characters as a loop over byte offsets. At each offset the text is cut to see
what stands there; a literal or a comment is left by searching its end in what follows.

## Main results

* `structure_eq`: all cuts of the scan are sound, and it finds what the scan of single characters
  finds.
* `closeFrom_eq`: so does the search for the bracket that closes another.
-/

namespace Cookbook

open Cookbook.Text

namespace Text

/-- What a scan tells: the structural characters, and the literal over several lines that is left
open. -/
def Scan.report (s : Scan) : List (Nat × Char) × Option Char :=
  (s.structural, s.mode.tripled?)

end Text

namespace Checked

/-! ## The loops -/

/-- The offset behind the literal in simple quotes in which `offset` stands. -/
def literalEnd (text : List Char) (quote : Char) : Nat → Nat → Option Nat
  | 0, _ => none
  | fuel + 1, offset =>
    if byteSize text ≤ offset then some offset
    else do
      match ← cutFrom offset text with
      | [] => return offset
      | c :: _ =>
        let next := offset + c.utf8Size
        if c = '\\' then
          match ← cutFrom next text with
          | [] => literalEnd text quote fuel next
          | e :: _ => literalEnd text quote fuel (next + e.utf8Size)
        else if c = quote then return next
        else literalEnd text quote fuel next

/-- The structural characters from an offset on, and the literal over several lines that is left
open. -/
def structureFrom (text : List Char) : Nat → Nat → Option (List (Nat × Char) × Option Char)
  | 0, _ => none
  | fuel + 1, offset =>
    if byteSize text ≤ offset then some ([], none)
    else do
      let rest ← cutFrom offset text
      match Delimiter.open? rest, rest with
      | some (⟨quote, true⟩, _), _ =>
        match indexOf? [quote, quote, quote] (← cutFrom (offset + 3) text) with
        | some position => structureFrom text fuel (offset + 3 + (position + 3))
        | none => return ([], some quote)
      | some (⟨quote, false⟩, _), _ =>
        structureFrom text fuel (← literalEnd text quote (text.length + 1) (offset + 1))
      | none, [] => return ([], none)
      | none, c :: _ =>
        if c = '#' then
          match indexOf? ['\n'] (← cutFrom offset text) with
          | some position => structureFrom text fuel (offset + position)
          | none => structureFrom text fuel (byteSize text)
        else
          let (found, quote?) ← structureFrom text fuel (offset + c.utf8Size)
          return ((offset, c) :: found, quote?)

/-- The structural characters of a text, and the literal over several lines that is left open. -/
def structure? (text : List Char) : Option (List (Nat × Char) × Option Char) :=
  structureFrom text (text.length + 1) 0

/-- The offset of the bracket that closes the one at an offset. -/
def closeFrom (text : List Char) (openAt : Nat) : Option (Option Nat) := do
  let (found, _) ← structure? (← cutFrom openAt text)
  return (closeOf? 0 found).map (openAt + ·)

variable {text front rest : List Char} {quote : Char} {fuel offset : Nat}

/-! ## Literals and comments -/

/-- A loop that has come to the end of the text. -/
theorem atEnd (front : List Char) : byteSize (front ++ []) ≤ byteSize front :=
  Nat.le_of_eq (by rw [List.append_nil])

theorem not_atEnd (front : List Char) (c : Char) (rest : List Char) :
    ¬byteSize (front ++ c :: rest) ≤ byteSize front := by
  have hpos := c.utf8Size_pos
  rw [byteSize_append, byteSize_cons]
  omega

theorem cutFrom_next (front : List Char) (c : Char) (rest : List Char) :
    cutFrom (byteSize front + c.utf8Size) (front ++ c :: rest) = some rest :=
  cutFrom_add front [c] rest

/-- From the offset behind `front` on, the loop finds the end of the literal in simple quotes that is
open there; the scan agrees on what follows. -/
def EndsLiteral (quote : Char) (fuel : Nat) (front rest : List Char) : Prop :=
  ∃ taken after, rest = taken ++ after ∧
    literalEnd (front ++ rest) quote fuel (byteSize front) = some (byteSize (front ++ taken)) ∧
    ∀ offset, (scan (.quoted quote) offset rest).report =
      (scan .code (offset + byteSize taken) after).report

/-- A step of the loop that the scan makes too. -/
theorem EndsLiteral.step (step : List Char) (h : EndsLiteral quote fuel (front ++ step) rest)
    (hloop : literalEnd (front ++ (step ++ rest)) quote (fuel + 1) (byteSize front) =
      literalEnd (front ++ (step ++ rest)) quote fuel (byteSize (front ++ step)))
    (hscan : ∀ offset, scan (.quoted quote) offset (step ++ rest) =
      scan (.quoted quote) (offset + byteSize step) rest) :
    EndsLiteral quote (fuel + 1) front (step ++ rest) := by
  obtain ⟨taken, after, rfl, hend, hreport⟩ := h
  refine ⟨step ++ taken, after, by rw [List.append_assoc], ?_, fun offset => ?_⟩
  · rw [hloop, ← List.append_assoc, hend, List.append_assoc]
  · rw [hscan, hreport, byteSize_append, Nat.add_assoc]

theorem endsLiteral (hquote : isQuote quote = true) (hfuel : rest.length < fuel) :
    EndsLiteral quote fuel front rest := by
  have hbackslash := ne_backslash_of_isQuote hquote
  induction fuel generalizing front rest with
  | zero => omega
  | succ fuel ih =>
    cases rest with
    | nil =>
      refine ⟨[], [], rfl, ?_, fun offset => rfl⟩
      rw [literalEnd, if_pos (atEnd front), List.append_nil]
    | cons c rest =>
      rw [List.length_cons] at hfuel
      have hloop := not_atEnd front c rest
      have hcut := cutFrom_append front (c :: rest)
      by_cases hslash : c = '\\'
      · subst hslash
        cases rest with
        | nil =>
          -- A backslash at the end of the text escapes nothing.
          have hrest : EndsLiteral quote fuel (front ++ ['\\']) [] := ih (by simpa using hfuel)
          refine hrest.step ['\\'] ?_ fun offset => rfl
          rw [List.append_nil, literalEnd, if_neg hloop, hcut]
          simp [cutFrom_next]
        | cons e rest =>
          rw [List.length_cons] at hfuel
          have hrest : EndsLiteral quote fuel (front ++ ['\\', e]) rest := ih (by omega)
          refine hrest.step ['\\', e] ?_ fun offset => ?_
          · rw [List.cons_append, List.singleton_append, literalEnd, if_neg hloop, hcut]
            simp [cutFrom_next, Nat.add_assoc]
          · simp [scan, Nat.add_assoc]
      · by_cases hend : c = quote
        · subst hend
          refine ⟨[c], rest, rfl, ?_, fun offset => ?_⟩
          · rw [literalEnd, if_neg hloop, hcut]
            simp [hslash]
          · have hscan := @scan_mode_close ⟨c, false⟩ hquote offset rest
            exact congrArg Scan.report hscan
        · have hrest : EndsLiteral quote fuel (front ++ [c]) rest := ih (by omega)
          refine hrest.step [c] ?_ fun offset => ?_
          · rw [List.singleton_append, literalEnd, if_neg hloop, hcut]
            simp [hslash, hend]
          · have hclose : Delimiter.close? ⟨quote, false⟩ (c :: rest) = none := by
              rw [close?_simple, if_neg hend]
            exact @scan_mode_skip ⟨quote, false⟩ c rest hclose (by simp [hslash]) offset

theorem byteSize_tripled (hquote : isQuote quote = true) :
    byteSize [quote, quote, quote] = 3 := by
  rcases eq_of_isQuote hquote with rfl | rfl <;> rfl

/-- A literal in triple quotes ends with the next three quotes. -/
theorem report_tripled (hquote : isQuote quote = true) (offset : Nat) (rest : List Char) :
    (scan (.tripled quote) offset rest).report =
      match breakOn? [quote, quote, quote] rest with
      | some (before, after) => (scan .code (offset + (byteSize before + 3)) after).report
      | none => ([], some quote) := by
  -- The search for three quotes and the scan go through the text together. The scan holds no place
  -- on this way, because nothing in a literal is structural.
  induction rest generalizing offset with
  | nil => rfl
  | cons c rest ih =>
    rw [breakOn?]
    cases hclose : List.isPrefixOf? [quote, quote, quote] (c :: rest) with
    | some after =>
      have hsize : byteSize (Delimiter.text ⟨quote, true⟩) = 3 := byteSize_tripled hquote
      rw [eq_append_of_isPrefixOf? hclose]
      show (scan (Delimiter.mode ⟨quote, true⟩) offset
        (Delimiter.text ⟨quote, true⟩ ++ after)).report = _
      rw [scan_mode_close hquote, hsize]
      dsimp only
      rw [byteSize_nil, Nat.zero_add]
    | none =>
      have hscan := @scan_mode_skip ⟨quote, true⟩ c rest hclose (by simp) offset
      show (scan (Delimiter.mode ⟨quote, true⟩) offset (c :: rest)).report = _
      rw [hscan]
      show (scan (.tripled quote) (offset + byteSize [c]) rest).report = _
      rw [ih]
      cases breakOn? [quote, quote, quote] rest with
      | none => rfl
      | some found => simp [Nat.add_assoc]

/-- A comment ends in front of the next line feed. -/
theorem report_comment (offset : Nat) (rest : List Char) :
    (scan .comment offset rest).report =
      match breakOn? ['\n'] rest with
      | some (before, after) => (scan .code (offset + byteSize before) ('\n' :: after)).report
      | none => ([], none) := by
  induction rest generalizing offset with
  | nil => rfl
  | cons c rest ih =>
    by_cases hc : c = '\n'
    -- The line feed is read outside of the comment, so it makes no difference that one was open.
    · subst hc
      have hscan (comment : Bool) :=
        @scan_other comment '\n' (fun _ => rfl) (by decide) rfl offset rest
      have hline : scan .comment offset ('\n' :: rest) = scan .code offset ('\n' :: rest) :=
        (hscan true).trans (hscan false).symm
      rw [hline]
      simp [breakOn?]
    · have hscan : scan .comment offset (c :: rest) = scan .comment (offset + byteSize [c]) rest :=
        scan_comment hc offset rest
      have hne : ('\n' == c) = false := beq_eq_false_iff_ne.mpr (Ne.symm hc)
      rw [hscan, ih, breakOn?, cons_isPrefixOf?_cons, hne, if_neg Bool.false_ne_true]
      dsimp only
      cases breakOn? ['\n'] rest with
      | none => rfl
      | some found => simp [Nat.add_assoc]

/-! ## The scan -/

/-- The loop finds what the scan of single characters finds, if it may take `fuel` steps. -/
def FindsStructure (text : List Char) (fuel : Nat) : Prop :=
  ∀ front rest, text = front ++ rest → rest.length < fuel →
    structureFrom text fuel (byteSize front) = some (scan .code (byteSize front) rest).report

/-- The steps behind the quotes that open a literal over several lines. -/
theorem FindsStructure.tripled {body : List Char} (h : FindsStructure text fuel)
    (hquote : isQuote quote = true) (htext : text = front ++ [quote, quote, quote] ++ body)
    (hfuel : body.length < fuel) :
    (match indexOf? [quote, quote, quote] body with
      | some position => structureFrom text fuel (byteSize front + 3 + (position + 3))
      | none => some ([], some quote)) =
      some (scan (.tripled quote) (byteSize front + 3) body).report := by
  have hsize := byteSize_tripled hquote
  rw [report_tripled hquote, indexOf?]
  cases hbreak : breakOn? [quote, quote, quote] body with
  | none => rfl
  | some found =>
    obtain ⟨before, after⟩ := found
    obtain rfl := append_of_breakOn? hbreak
    simp only [List.length_append] at hfuel
    have hafter := h (front ++ [quote, quote, quote] ++ before ++ [quote, quote, quote]) after
      (by rw [htext]; simp) (by omega)
    simp only [byteSize_append, hsize, Nat.add_assoc] at hafter ⊢
    exact hafter

/-- The steps behind the quote that opens a literal on one line. -/
theorem FindsStructure.quoted {body : List Char} (h : FindsStructure text fuel)
    (hquote : isQuote quote = true) (htext : text = front ++ [quote] ++ body)
    (hfuel : body.length < fuel) :
    ((literalEnd text quote (text.length + 1) (byteSize front + 1)).bind fun offset =>
      structureFrom text fuel offset) =
      some (scan (.quoted quote) (byteSize front + 1) body).report := by
  have hsize : byteSize [quote] = 1 := by
    rcases eq_of_isQuote hquote with rfl | rfl <;> rfl
  have hlonger := congrArg List.length htext
  simp only [List.length_append] at hlonger
  obtain ⟨taken, after, rfl, hend, hreport⟩ :=
    @endsLiteral (front ++ [quote]) body quote (text.length + 1) hquote (by omega)
  rw [List.length_append] at hfuel
  have hafter := h (front ++ [quote] ++ taken) after (by rw [htext]; simp) (by omega)
  rw [← htext, byteSize_append, hsize] at hend
  rw [hend, Option.bind_some, hafter, hreport]
  simp only [byteSize_append, hsize]

/-- The steps at a number sign. -/
theorem FindsStructure.comment (h : FindsStructure text fuel) (htext : text = front ++ '#' :: rest)
    (hfuel : rest.length < fuel) :
    (match indexOf? ['\n'] ('#' :: rest) with
      | some position => structureFrom text fuel (byteSize front + position)
      | none => structureFrom text fuel (byteSize text)) =
      some (scan .code (byteSize front) ('#' :: rest)).report := by
  -- The number sign itself belongs to the comment that it starts.
  have hcomment : scan .code (byteSize front) ('#' :: rest) =
      scan .comment (byteSize front) ('#' :: rest) :=
    (scan_hash _ rest).trans (scan_comment (by decide) _ rest).symm
  rw [hcomment, report_comment, indexOf?]
  cases hbreak : breakOn? ['\n'] ('#' :: rest) with
  | none => exact h text [] (by simp) (Nat.zero_lt_of_lt hfuel)
  | some found =>
    obtain ⟨before, after⟩ := found
    have hline := append_of_breakOn? hbreak
    rw [List.append_assoc, List.singleton_append] at hline
    cases before with
    | nil => cases hline
    | cons c before =>
      have hlength := congrArg List.length hline
      simp only [List.length_append, List.length_cons] at hlength
      have hafter := h (front ++ c :: before) ('\n' :: after)
        (by rw [htext, hline, List.append_assoc]) (by rw [List.length_cons]; omega)
      rw [byteSize_append] at hafter
      exact hafter

/-- The steps at a quote that opens a literal. -/
theorem FindsStructure.opens {d : Delimiter} {body : List Char} (h : FindsStructure text fuel)
    (hquote : isQuote d.quote = true) (htext : text = front ++ d.text ++ body)
    (hfuel : body.length < fuel) :
    (match d with
      | ⟨quote, true⟩ => (cutFrom (byteSize front + 3) text).bind fun rest =>
        match indexOf? [quote, quote, quote] rest with
        | some position => structureFrom text fuel (byteSize front + 3 + (position + 3))
        | none => some ([], some quote)
      | ⟨quote, false⟩ =>
        (literalEnd text quote (text.length + 1) (byteSize front + 1)).bind fun offset =>
          structureFrom text fuel offset) =
      some (scan d.mode (byteSize front + byteSize d.text) body).report := by
  obtain ⟨quote, triple⟩ := d
  -- The program looks for the end of the two kinds of literals in two ways. All that is shown here
  -- is that both start from the offset behind the delimiter.
  cases triple with
  | true =>
    have hsize : byteSize (Delimiter.text ⟨quote, true⟩) = 3 := byteSize_tripled hquote
    have hbehind : cutFrom (byteSize front + 3) text = some body := by
      rw [htext, ← hsize, ← byteSize_append, cutFrom_append]
    rw [hsize, hbehind]
    exact h.tripled hquote htext hfuel
  | false =>
    have hsize : byteSize (Delimiter.text ⟨quote, false⟩) = 1 := by
      rcases eq_of_isQuote hquote with hquote | hquote <;> cases hquote <;> rfl
    rw [hsize]
    exact h.quoted hquote htext hfuel

theorem FindsStructure.succ (h : FindsStructure text fuel) : FindsStructure text (fuel + 1) := by
  intro front rest htext hfuel
  cases rest with
  | nil =>
    rw [htext, structureFrom, if_pos (atEnd front)]
    rfl
  | cons c rest =>
    rw [List.length_cons] at hfuel
    have hcut : cutFrom (byteSize front) text = some (c :: rest) := by
      rw [htext, cutFrom_append]
    rw [structureFrom, if_neg (by rw [htext]; exact not_atEnd front c rest), hcut]
    simp only [Option.bind_eq_bind, Option.bind_some]
    cases hopen : Delimiter.open? (c :: rest) with
    | some opened =>
      obtain ⟨d, body⟩ := opened
      obtain ⟨hquote, hbody⟩ := eq_append_of_open? hopen
      -- The quotes take at least one character, so what follows them is shorter.
      have hlength := congrArg List.length hbody
      rw [List.length_cons, List.length_append] at hlength
      have hpos := d.length_text_pos
      have hsteps := h.opens hquote (by rw [htext, hbody, List.append_assoc]) (by omega)
      rw [scan_open hopen, ← hsteps]
      obtain ⟨quote, _ | _⟩ := d <;> rfl
    | none =>
      dsimp only
      by_cases hhash : c = '#'
      · subst hhash
        rw [if_pos rfl]
        exact h.comment htext (by omega)
      · have hother : scan .code (byteSize front) (c :: rest) =
            (scan .code (byteSize front + c.utf8Size) rest).cons (byteSize front) c :=
          @scan_other false c (by simp) hhash (isQuote_of_open? hopen) _ rest
        have hrest := h (front ++ [c]) rest (by rw [htext]; simp) (by omega)
        rw [byteSize_append, byteSize_cons, byteSize_nil, Nat.add_zero] at hrest
        rw [if_neg hhash, hrest, hother]
        rfl

theorem findsStructure (text : List Char) (fuel : Nat) : FindsStructure text fuel := by
  induction fuel with
  | zero => exact fun _ _ _ h => absurd h (Nat.not_lt_zero _)
  | succ fuel ih => exact ih.succ

/-- All cuts of the scan are sound. -/
theorem structure_eq (text : List Char) : structure? text = some (scan .code 0 text).report :=
  findsStructure text _ [] text rfl (Nat.lt_succ_self _)

/-- So are those of the search for a closing bracket. -/
theorem closeFrom_eq (front rest : List Char) :
    closeFrom (front ++ rest) (byteSize front) =
      some ((matchingClose? rest).map (byteSize front + ·)) := by
  rw [closeFrom, cutFrom_append]
  simp only [Option.bind_eq_bind, Option.bind_some, structure_eq]
  rfl

end Checked

end Cookbook
