import Cookbook.Proofs.Text.ScannedLiteral

/-!
# Where the scan closes a bracket

The bracket at the start of a text is closed at the end of what `scanGroup?` takes. That is a group
in brackets like those of the grammar, but the brackets are only counted, and the literals in it are
the ones that the scan takes.

## Main results

* `closeOf?_scan`: the scan closes the open brackets where `scanOwed` ends.
* `matchingClose?_eq`: the closing bracket is the last character of the scanned group.
-/

namespace Cookbook.Text

/-! ## What the scan takes for a literal -/

theorem eq_append_of_scanBody {d : Delimiter} {text taken rest : List Char}
    (h : scanBody d text = some (taken, rest)) : text = taken ++ rest := by
  fun_induction scanBody d text generalizing taken with
  | case1 => cases h
  | case2 c text after hclose =>
    cases h
    exact eq_append_of_close? hclose
  | case3 => cases h
  | case4 c hescape e text hclose ih =>
    obtain ⟨inner, hinner, rfl⟩ := keep_eq_some h
    rw [hescape.1, ih hinner]
    rfl
  | case5 c text hclose hslash ih =>
    obtain ⟨inner, hinner, rfl⟩ := keep_eq_some h
    rw [ih hinner]
    rfl

theorem eq_append_of_scanLiteral? {text taken rest : List Char}
    (h : scanLiteral? text = some (taken, rest)) : taken ≠ [] ∧ text = taken ++ rest := by
  unfold scanLiteral? at h
  split at h
  · next d body hopen =>
    obtain ⟨inner, hinner, rfl⟩ := keep_eq_some h
    have hpos := d.length_text_pos
    refine ⟨?_, ?_⟩
    · intro hnil
      rw [(List.append_eq_nil_iff.mp hnil).1] at hpos
      cases hpos
    · rw [(eq_append_of_open? hopen).2, eq_append_of_scanBody hinner, List.append_assoc]
  · cases h

theorem length_lt_of_scanLiteral? {text taken rest : List Char}
    (h : scanLiteral? text = some (taken, rest)) : rest.length < text.length := by
  obtain ⟨hne, rfl⟩ := eq_append_of_scanLiteral? h
  have hpos := List.length_pos_iff.mpr hne
  rw [List.length_append]
  omega

/-- A literal that the scan does not leave hides all structural characters. -/
theorem structural_scan_mode {d : Delimiter} {text : List Char} (h : scanBody d text = none)
    (offset : Nat) : (scan d.mode offset text).structural = [] := by
  fun_induction scanBody d text generalizing offset with
  | case1 => rfl
  | case2 => cases h
  | case3 c hescape hclose =>
    obtain ⟨rfl, hsimple⟩ := hescape
    simp [Delimiter.mode, hsimple, scan]
  | case4 c hescape e text hclose ih =>
    rw [hescape.1, scan_mode_escape hescape.2]
    exact ih (keep_eq_none_iff.mp h) _
  | case5 c text hclose hslash ih =>
    rw [scan_mode_skip hclose hslash]
    exact ih (keep_eq_none_iff.mp h) _

theorem structural_scan_quote {c : Char} {text : List Char} (hquote : isQuote c = true)
    (h : scanLiteral? (c :: text) = none) (offset : Nat) :
    (scan .code offset (c :: text)).structural = [] := by
  unfold scanLiteral? at h
  split at h
  · next d body hopen =>
    rw [scan_open hopen]
    exact structural_scan_mode (keep_eq_none_iff.mp h) _
  · next hopen =>
    exfalso
    unfold Delimiter.open? at hopen
    simp only [hquote, if_true] at hopen
    split at hopen
    · split at hopen <;> cases hopen
    · cases hopen

/-! ## What the scan takes for a group -/

/-- The start of a text up to where `depth` brackets are closed, and what follows it. Brackets are
only counted, and literals are those of the scan. -/
def scanOwed (comment : Bool) (depth : Nat) (input : List Char) :
    Option (List Char × List Char) :=
  match depth, input with
  | 0, input => some ([], input)
  | _ + 1, [] => none
  | depth + 1, c :: rest =>
    if comment && c != '\n' then keep [c] (scanOwed true (depth + 1) rest)
    else if isClosing c then keep [c] (scanOwed false depth rest)
    else if c = '#' then keep [c] (scanOwed true (depth + 1) rest)
    else if isQuote c then
      match h : scanLiteral? (c :: rest) with
      | some (taken, after) =>
        have := length_lt_of_scanLiteral? h
        keep taken (scanOwed false (depth + 1) after)
      | none => none
    else if isOpening c then keep [c] (scanOwed false (depth + 2) rest)
    else keep [c] (scanOwed false (depth + 1) rest)
termination_by input.length
decreasing_by all_goals (simp only [List.length_cons] at *; omega)

/-- What the scan takes for the group at the start of a text, and what follows it. -/
def scanGroup? : List Char → Option (List Char × List Char)
  | [] => none
  | c :: rest => if isOpening c then keep [c] (scanOwed false 1 rest) else none

theorem eq_append_of_scanOwed {comment : Bool} {depth : Nat} {input taken rest : List Char}
    (h : scanOwed comment depth input = some (taken, rest)) : input = taken ++ rest := by
  fun_induction scanOwed comment depth input generalizing taken
  case case1 => cases h; rfl
  case case2 | case7 => cases h
  case case6 hliteral _ ih =>
    obtain ⟨inner, hinner, rfl⟩ := keep_eq_some h
    rw [(eq_append_of_scanLiteral? hliteral).2, ih hinner, List.append_assoc]
  -- Every other step takes one character and goes on.
  case case3 ih | case4 ih | case5 ih | case8 ih | case9 ih =>
    obtain ⟨inner, hinner, rfl⟩ := keep_eq_some h
    rw [ih hinner]
    rfl

/-! ## The scan of a group -/

/-- The state of the scan outside literals. -/
def codeMode (comment : Bool) : Mode :=
  if comment then .comment else .code

/-- A character after a comment, or in none, that is no line feed stands in no comment. -/
theorem eq_false_of_quote {comment : Bool} {c : Char}
    (hcomment : ¬(comment && c != '\n') = true) (hquote : isQuote c = true) : comment = false := by
  cases comment with
  | false => rfl
  | true =>
    obtain rfl : c = '\n' := by simpa using hcomment
    cases hquote

/-- Outside literals and comments, and at the end of a comment, the scan keeps a character. -/
theorem scan_other {comment : Bool} {c : Char} (hcomment : comment = true → c = '\n')
    (hhash : c ≠ '#') (hquote : isQuote c = false) (offset : Nat) (rest : List Char) :
    scan (codeMode comment) offset (c :: rest) =
      (scan (codeMode false) (offset + byteSize [c]) rest).cons offset c := by
  cases comment with
  | false =>
    show scan .code offset (c :: rest) = _
    rw [scan.eq_def]
    simp [codeMode, hhash, hquote]
  | true =>
    obtain rfl := hcomment rfl
    rw [scan.eq_def]
    simp [codeMode]

theorem scan_comment {c : Char} (hc : c ≠ '\n') (offset : Nat) (rest : List Char) :
    scan (codeMode true) offset (c :: rest) =
      scan (codeMode true) (offset + byteSize [c]) rest := by
  show scan .comment offset (c :: rest) = _
  rw [scan.eq_def]
  simp [codeMode, hc]

theorem scan_hash (offset : Nat) (rest : List Char) :
    scan (codeMode false) offset ('#' :: rest) =
      scan (codeMode true) (offset + byteSize ['#']) rest := by
  show scan .code offset ('#' :: rest) = _
  rw [scan.eq_def]
  simp [codeMode, isQuote]

theorem of_isOpening {c : Char} (h : isOpening c = true) : c ≠ '#' ∧ isQuote c = false := by
  rcases eq_of_isOpening h with rfl | rfl | rfl <;> decide

theorem of_isClosing {c : Char} (h : isClosing c = true) :
    c ≠ '#' ∧ isQuote c = false ∧ isOpening c = false ∧ byteSize [c] = 1 := by
  rcases eq_of_isClosing h with rfl | rfl | rfl <;> decide

/-- Where a group from an offset on ends. -/
def lastOf (offset : Nat) (taken : Option (List Char × List Char)) : Option Nat :=
  taken.map fun taken => offset + byteSize taken.1 - 1

theorem lastOf_keep (offset : Nat) (text : List Char) (taken : Option (List Char × List Char)) :
    lastOf offset (keep text taken) = lastOf (offset + byteSize text) taken := by
  cases taken with
  | none => rfl
  | some taken => simp only [lastOf, keep, Option.map_some, byteSize_append, Nat.add_assoc]

variable {c : Char} {depth offset : Nat} {s : Scan}

theorem closeOf?_cons_opening (h : isOpening c = true) :
    closeOf? depth (s.cons offset c).structural = closeOf? (depth + 1) s.structural := by
  rw [Scan.cons, closeOf?.eq_def]
  simp [h]

theorem closeOf?_cons_closing (h : isClosing c = true) :
    closeOf? (depth + 2) (s.cons offset c).structural = closeOf? (depth + 1) s.structural := by
  rw [Scan.cons, closeOf?.eq_def]
  simp [of_isClosing h, h]

theorem closeOf?_cons_last (h : isClosing c = true) :
    closeOf? 1 (s.cons offset c).structural = some offset := by
  rw [Scan.cons, closeOf?.eq_def]
  simp [of_isClosing h, h]

theorem closeOf?_cons_other (hopening : isOpening c = false) (hclosing : isClosing c = false) :
    closeOf? depth (s.cons offset c).structural = closeOf? depth s.structural := by
  rw [Scan.cons, closeOf?.eq_def]
  simp [hopening, hclosing]

/-- The scan closes the open brackets at the end of what it takes for their groups. -/
theorem closeOf?_scan {comment : Bool} {depth : Nat} {input : List Char} (hdepth : depth ≠ 0)
    (offset : Nat) :
    closeOf? depth (scan (codeMode comment) offset input).structural =
      lastOf offset (scanOwed comment depth input) := by
  -- The branches are those of `scanOwed`; in each the scan takes the same text.
  fun_induction scanOwed comment depth input generalizing offset
  case case1 => exact absurd rfl hdepth
  case case2 => rfl
  case case3 comment depth c text hcomment ih =>
    obtain ⟨rfl, hc⟩ : comment = true ∧ c ≠ '\n' := by simpa using hcomment
    rw [scan_comment hc, lastOf_keep]
    exact ih hdepth _
  case case4 comment depth c text hcomment hclosing ih =>
    have hline : comment = true → c = '\n' := by simpa using hcomment
    obtain ⟨hhash, hquote, -, hsize⟩ := of_isClosing hclosing
    rw [scan_other hline hhash hquote, lastOf_keep]
    cases depth with
    | zero =>
      -- This is the bracket that was looked for.
      rw [closeOf?_cons_last hclosing, scanOwed, hsize]
      rfl
    | succ depth =>
      rw [closeOf?_cons_closing hclosing]
      exact ih (Nat.succ_ne_zero _) _
  case case5 comment depth text hcomment hclosing ih =>
    obtain rfl : comment = false := by simpa using hcomment
    rw [scan_hash, lastOf_keep]
    exact ih hdepth _
  case case6 comment depth c text hcomment hclosing hhash hquote taken after hliteral _ ih =>
    obtain rfl := eq_false_of_quote hcomment hquote
    rw [lastOf_keep, ← ih hdepth, show codeMode false = .code from rfl, scan_literal hliteral]
  case case7 comment depth c text hcomment hclosing hhash hquote hliteral =>
    -- The scan does not find the end of this literal, and nothing behind it counts.
    obtain rfl := eq_false_of_quote hcomment hquote
    show closeOf? _ (scan .code offset (c :: text)).structural = _
    rw [structural_scan_quote hquote hliteral]
    rfl
  case case8 comment depth c text hcomment hclosing hhash hquote hopening ih =>
    have hline : comment = true → c = '\n' := by simpa using hcomment
    rw [Bool.not_eq_true] at hquote
    rw [scan_other hline hhash hquote, lastOf_keep, closeOf?_cons_opening hopening]
    exact ih (Nat.succ_ne_zero _) _
  case case9 comment depth c text hcomment hclosing hhash hquote hopening ih =>
    have hline : comment = true → c = '\n' := by simpa using hcomment
    rw [Bool.not_eq_true] at hquote hopening hclosing
    rw [scan_other hline hhash hquote, lastOf_keep, closeOf?_cons_other hopening hclosing]
    exact ih hdepth _

/-- The bracket at the start of a text is closed by the last character of the scanned group. -/
theorem matchingClose?_eq {c : Char} (hopening : isOpening c = true) (text : List Char) :
    matchingClose? (c :: text) = lastOf 0 (scanGroup? (c :: text)) := by
  obtain ⟨hhash, hquote⟩ := of_isOpening hopening
  have hline : false = true → c = '\n' := fun h => Bool.noConfusion h
  show closeOf? 0 (scan (codeMode false) 0 (c :: text)).structural = _
  rw [scan_other hline hhash hquote, closeOf?_cons_opening hopening,
    closeOf?_scan (Nat.succ_ne_zero 0), scanGroup?, if_pos hopening, lastOf_keep]

end Cookbook.Text
