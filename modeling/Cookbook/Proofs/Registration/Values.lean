import Cookbook.Proofs.Registration.Rows
import Cookbook.Proofs.Rule.Tokens
import Cookbook.Proofs.Text.Structural
import Cookbook.Registration

/-!
# Values of arguments

What may stand as the value of an argument so that it is read back as it was written: identifiers,
literals, lists in brackets, and argument maps.

## Main definitions

* `IsValue`: a text that is taken whole as a value, whatever separates it from what follows.
* `KeptRow`: a row that the reader of values keeps as it stands.

## Main results

* `IsValue.identifier`, `IsValue.quoted`, `IsValue.group`, `IsMap.isValue`: what is a value.
* `keptRow_of_takeValue`: a text without backslashes that is taken whole is kept in front of another one.
-/

namespace Cookbook

open Cookbook.Text Cookbook.Grammar

variable {c : Char} {comment : Bool} {text rest more gap : List Char}

/-! ## The reader of values -/

theorem takeValue_literal {value : List Char} (h : literal (text ++ rest) = .done value rest) :
    takeValue false (text ++ rest) = keep text (takeValue false rest) := by
  have htaken : front (text ++ rest) rest = text := front_append text rest
  obtain ⟨c, tail, htext, hquote, hclosing, hhash⟩ := exists_quote_of_literal h
  have hblank : c ≠ ',' ∧ isBlank c = false := by
    rcases eq_of_isQuote hquote with rfl | rfl <;> decide
  rw [htext] at h htaken ⊢
  rw [takeValue]
  simp only [Bool.false_and, Bool.false_eq_true, if_false, hclosing, hhash, hquote, hblank,
    if_true, beq_eq_false_iff_ne.mpr hblank.1, Bool.or_false]
  split
  · next hdone =>
    cases hdone.symm.trans h
    rw [htaken]
  · next hstuck => cases hstuck.symm.trans h

theorem takeValue_group (h : takeGroup (text ++ rest) = some (text, rest)) :
    takeValue false (text ++ rest) = keep text (takeValue false rest) := by
  obtain ⟨c, body, inner, hopening, htext, -, -⟩ := takeGroup_inv h
  obtain ⟨hhash, hquote⟩ := of_isOpening hopening
  have hclosing : isClosing c = false := isClosing_of_isOpening hopening
  have hblank : c ≠ ',' ∧ isBlank c = false := by
    rcases eq_of_isOpening hopening with rfl | rfl | rfl <;> decide
  rw [htext] at h ⊢
  rw [takeValue]
  simp only [Bool.false_and, Bool.false_eq_true, if_false, hclosing, hhash, hquote, hblank,
    hopening, if_true, beq_eq_false_iff_ne.mpr hblank.1, Bool.or_false]
  split
  · next hsome =>
    cases hsome.symm.trans h
    rfl
  · next hnone => cases hnone.symm.trans h

theorem takeValue_plain (hc : isPlain c = true) (hcomma : c ≠ ',') (hblank : isBlank c = false) :
    takeValue false (c :: rest) = keep [c] (takeValue false rest) := by
  obtain ⟨hhash, hquote, hopening, hclosing⟩ := of_isPlain hc
  rw [takeValue]
  simp [hhash, hquote, hopening, hclosing, hcomma, hblank]

theorem takeValue_comment {body : List Char} (hbody : '\n' ∉ body)
    (h : takeValue false rest = some ([], more)) :
    takeValue true (body ++ '\n' :: rest) = some ([], more) := by
  induction body with
  | nil =>
    rw [List.nil_append, takeValue]
    simp [isClosing, isBlank, h, keepWithin]
  | cons c body ih =>
    rw [List.mem_cons, not_or] at hbody
    rw [List.cons_append, takeValue]
    simp [Ne.symm hbody.1, ih hbody.2, keepWithin]

/-- A gap at the end of a value does not belong to it. -/
theorem takeValue_gap (hgap : IsGap gap) (h : takeValue false rest = some ([], more)) :
    takeValue false (gap ++ rest) = some ([], more) := by
  -- What stands in front of an end of a value is kept only as a part of it, and here is none.
  induction hgap with
  | nil => exact h
  | @space c gap hc _ ih =>
    obtain ⟨hhash, hquote, hopening, hclosing⟩ := of_isPlain (isPlain_of_isSpace hc)
    have hcomma : c ≠ ',' := by rintro rfl; cases hc
    rw [List.cons_append, takeValue]
    simp [hhash, hclosing, hcomma, isBlank_of_isSpace hc, ih, keepWithin]
  | @comment body gap hbody _ ih =>
    rw [List.append_assoc, List.cons_append, takeValue]
    simp [isClosing, takeValue_comment hbody ih, keepWithin]

theorem takeValue_comma (rest : List Char) : takeValue false (',' :: rest) = some ([], ',' :: rest) := by
  rw [takeValue]
  rfl

theorem takeValue_nil : takeValue false [] = some ([], []) := by
  rw [takeValue]

/-! ## Values -/

/-- A text that is taken whole as a value, and passed over by the scan, in front of anything but a
double quote. Nothing in front of it is taken for its label. -/
structure IsValue (text : List Char) : Prop where
  starts : ∃ c tail, text = c :: tail ∧ startsGap c = false ∧ c ≠ '='
  unlabelled : ∀ rest : List Char, Boundary rest → (skipLayout rest).head? ≠ some '=' →
    takeLabel (text ++ rest) = (none, text ++ rest)
  takes : ∀ rest : List Char, rest.head? ≠ some '"' →
    takeValue false (text ++ rest) = keep text (takeValue false rest)
  row : ∀ rest : List Char, rest.head? ≠ some '"' → Row false [] text rest

theorem isPlain_of_isIdentChar (h : isIdentChar c = true) :
    isPlain c = true ∧ c ≠ ',' ∧ isBlank c = false := by
  have hne : ∀ d, isIdentChar d = false → c ≠ d := fun _ hd => ne_of_test h hd
  refine ⟨?_, hne _ (by decide), isBlank_of_isIdentChar h⟩
  simp [isPlain, isQuote, isOpening, isClosing, hne '#', hne '"', hne '\'', hne '(', hne '[',
    hne '{', hne ')', hne ']', hne '}', isIdentChar]

theorem takeValue_identChars (h : ∀ c ∈ text, isIdentChar c = true) (rest : List Char) :
    takeValue false (text ++ rest) = keep text (takeValue false rest) := by
  induction text with
  | nil => rw [List.nil_append, keep_nil]
  | cons c text ih =>
    rw [List.forall_mem_cons] at h
    obtain ⟨hplain, hcomma, hblank⟩ := isPlain_of_isIdentChar h.1
    rw [List.cons_append, takeValue_plain hplain hcomma hblank, ih h.2, keep_keep]
    rfl

theorem isIdentStart_of_isOpening (h : isOpening c = true) : isIdentStart c = false := by
  rcases eq_of_isOpening h with rfl | rfl | rfl <;> decide

theorem takeLabel_of_not_isIdentStart (hc : isIdentStart c = false) (rest : List Char) :
    takeLabel (c :: rest) = (none, c :: rest) := by
  rw [takeLabel, label_stuck_of_stuck (identifier_stuck hc rest)]

theorem takeLabel_identifier {id : String} (h : isIdentifier id.toList = true)
    (hrest : Boundary rest) (hsign : (skipLayout rest).head? ≠ some '=') :
    takeLabel (id.toList ++ rest) = (none, id.toList ++ rest) := by
  have hid := identifier_append h fun c hc => (hrest c hc).1
  rw [takeLabel, label_stuck_of_done hid hsign]

theorem IsValue.identifier (h : isIdentifier text = true) : IsValue text where
  starts := by
    obtain ⟨c, tail, rfl, hc, -⟩ := exists_cons_of_isIdentifier h
    exact ⟨c, tail, rfl, (of_isIdentStart hc).1, ne_of_test hc rfl⟩
  unlabelled := by
    intro rest hrest hsign
    have hid : isIdentifier (String.ofList text).toList = true := by rwa [String.toList_ofList]
    have hlabel := takeLabel_identifier hid hrest hsign
    rwa [String.toList_ofList] at hlabel
  takes := fun rest _ => takeValue_identChars (forall_isIdentChar h) rest
  row := fun rest _ =>
    row_plain (fun c hc => (isPlain_of_isIdentChar (forall_isIdentChar h c hc)).1) rest

theorem IsValue.quoted (value : List Char) : IsValue (quoted value) where
  starts := ⟨'"', _, rfl, rfl, by decide⟩
  unlabelled := fun _ _ _ => takeLabel_of_not_isIdentStart rfl _
  takes := fun _ hrest => takeValue_literal (literal_quoted hrest)
  row := fun _ hrest => row_quoted value hrest

/-- A row in brackets is a value. -/
theorem IsValue.group (hc : isOpening c = true)
    (h : ∀ rest, Row false [] text (closing c :: rest)) : IsValue (c :: text ++ [closing c]) where
  starts := by
    refine ⟨c, _, rfl, ?_⟩
    rcases eq_of_isOpening hc with rfl | rfl | rfl <;> decide
  unlabelled := fun _ _ _ => takeLabel_of_not_isIdentStart (isIdentStart_of_isOpening hc) _
  takes := by
    intro rest _
    apply takeValue_group
    have htext : c :: text ++ [closing c] ++ rest = c :: (text ++ closing c :: rest) := by simp
    rw [htext]
    exact takeGroup_row hc (h rest)
  row := fun rest _ => .group hc (h rest)

/-! ## Argument maps -/

/-- The text of an argument map: braces around anything that the reader of values takes whole. It
has no backslash. -/
structure IsMap (text : List Char) : Prop where
  whole : takeValue false text = some (text, [])
  opens : text.head? = some '{'
  closes : text.getLast? = some '}'
  plain : '\\' ∉ text

theorem keepWithin_eq_some {taken : Option (List Char × List Char)}
    (h : keepWithin c taken = some (c :: text, rest)) : taken = some (text, rest) ∧ text ≠ [] := by
  match taken with
  | none => cases h
  | some ([], _) => cases h
  | some (d :: value, _) => cases h; exact ⟨rfl, List.cons_ne_nil _ _⟩

theorem keepWithin_keep (h : text ≠ []) (taken : Option (List Char × List Char)) :
    keepWithin c (keep text taken) = keep (c :: text) taken := by
  obtain ⟨d, tail, rfl⟩ := List.exists_cons_of_ne_nil h
  cases taken <;> rfl

theorem forall_getLast?_of_append {p : Char → Prop} (front : List Char)
    (h : ∀ q ∈ (front ++ text).getLast?, p q) : ∀ q ∈ text.getLast?, p q := by
  intro q hq
  apply h q
  rw [List.getLast?_append, Option.mem_def.mp hq]
  rfl

theorem isQuote_getLast?_of_literal {value : List Char} (h : literal text = .done value []) :
    ∃ q ∈ text.getLast?, isQuote q = true := by
  obtain ⟨d, body, hopen, -⟩ := eq_append_of_literal h
  obtain ⟨hq, htext⟩ := eq_append_of_open? hopen
  obtain ⟨q, triple⟩ := d
  refine ⟨q, ?_, hq⟩
  have hlast : (Delimiter.text ⟨q, triple⟩).getLast? = some q := by cases triple <;> rfl
  rw [htext, List.append_nil, ← List.append_assoc, List.getLast?_append, hlast]
  rfl

theorem isPlain_of_isBlank (h : isBlank c = true) (hhash : c ≠ '#') : isPlain c = true := by
  have hne : ∀ d, isBlank d = false → c ≠ d := fun _ hd => ne_of_test h hd
  simp [isPlain, isQuote, isOpening, isClosing, hhash, hne '"' rfl, hne '\'' rfl, hne '(' rfl,
    hne '[' rfl, hne '{' rfl, hne ')' rfl, hne ']' rfl, hne '}' rfl]

/-- A literal at the start of a text is the same in front of a longer text, unless the text ends with
it and a quote follows. -/
theorem literal_extend {value : List Char} (h : literal (text ++ rest) = .done value rest)
    (hlast : (∀ q ∈ (text ++ rest).getLast?, isQuote q = false) ∨ Unquoted more) :
    literal (text ++ (rest ++ more)) = .done value (rest ++ more) := by
  rw [← List.append_assoc]
  rcases hlast with hlast | hmore
  · -- A literal at the end of the text would end the text with a quote.
    have hne : rest ≠ [] := by
      rintro rfl
      obtain ⟨q, hq, hquote⟩ := isQuote_getLast?_of_literal h
      rw [hlast q hq] at hquote
      cases hquote
    exact literal_append more h hne
  · exact literal_append_of_unquoted h hmore

/-- A group at the start of a text is the same in front of a longer text. -/
theorem takeGroup_extend (more : List Char) (h : takeGroup (text ++ rest) = some (text, rest)) :
    takeGroup (text ++ (rest ++ more)) = some (text, rest ++ more) := by
  obtain ⟨c, body, inner, hopening, hinput, rfl, hinner⟩ := takeGroup_inv h
  obtain rfl : inner ++ rest = body := (List.cons.inj hinput).2
  have hlong := takeOwed_append more hinner
  rw [List.append_assoc] at hlong
  rw [List.cons_append, takeGroup, if_pos hopening, hlong]
  rfl

/-- A row that the reader of values keeps as it stands, in front of `more`. -/
structure KeptRow (comment : Bool) (text more : List Char) : Prop where
  row : Row comment [] text more
  takes : takeValue comment (text ++ more) = keep text (takeValue false more)

namespace KeptRow

theorem nil (more : List Char) : KeptRow false [] more where
  row := .nil
  takes := by rw [List.nil_append, keep_nil]

/-- The characters of a comment are kept if something is kept behind them. -/
theorem inside (hc : c ≠ '\n') (hne : text ≠ []) (h : KeptRow true text more) :
    KeptRow true (c :: text) more where
  row := .comment hc h.row
  takes := by
    rw [List.cons_append, takeValue, if_pos (by simpa using hc), h.takes, keepWithin_keep hne]

theorem sign (hne : text ≠ []) (h : KeptRow true text more) : KeptRow false ('#' :: text) more where
  row := .sign h.row
  takes := by
    rw [List.cons_append, takeValue]
    simp [isClosing, h.takes, keepWithin_keep hne]

/-- So are blanks, the line feed at the end of a comment among them. -/
theorem blank (hline : comment = true → c = '\n') (hc : isBlank c = true) (hhash : c ≠ '#')
    (hne : text ≠ []) (h : KeptRow false text more) : KeptRow comment (c :: text) more where
  row := .plain hline (isPlain_of_isBlank hc hhash) h.row
  takes := by
    have hclosing : isClosing c = false := (of_isPlain (isPlain_of_isBlank hc hhash)).2.2.2
    have hcomma : c ≠ ',' := by rintro rfl; cases hc
    rw [List.cons_append, takeValue]
    simp [not_comment hline, hclosing, hcomma, hhash, hc, h.takes, keepWithin_keep hne]

theorem plain (hc : isPlain c = true) (hcomma : c ≠ ',') (hblank : isBlank c = false)
    (h : KeptRow false text more) : KeptRow false (c :: text) more where
  row := .code hc h.row
  takes := by
    rw [List.cons_append, takeValue_plain hc hcomma hblank, h.takes, keep_keep]
    rfl

/-- Without a backslash no literal is torn. -/
theorem literal {value : List Char}
    (hliteral : Text.literal (text ++ (rest ++ more)) = .done value (rest ++ more))
    (hslash : '\\' ∉ text) (h : KeptRow false rest more) : KeptRow false (text ++ rest) more where
  row := .literal hliteral (isTorn_of_not_mem hslash) h.row
  takes := by rw [List.append_assoc, takeValue_literal hliteral, h.takes, keep_keep]

/-- What stands in the brackets of a group is a row of its own. -/
theorem group (hgroup : takeGroup (text ++ rest) = some (text, rest)) (hslash : '\\' ∉ text)
    (h : KeptRow false rest more) : KeptRow false (text ++ rest) more where
  row := by
    obtain ⟨c, body, inner, hopening, -, rfl, hinner⟩ := takeGroup_inv hgroup
    have hrow : Row false [closing c] inner (rest ++ more) :=
      row_of_takeOwed more hinner (List.not_mem_of_not_mem_cons hslash) fun _ => rfl
    exact .opens hopening (hrow.append h.row)
  takes := by
    rw [List.append_assoc, takeValue_group (takeGroup_extend more hgroup), h.takes, keep_keep]

end KeptRow

/-- A value without backslashes that the reader takes whole is a row, and the reader takes it whole in
front of another text. That text may start with a quote only if the value does not end with one. -/
theorem keptRow_of_takeValue {input value : List Char} (more : List Char)
    (h : takeValue comment input = some (value, [])) (hwhole : value = input)
    (hslash : '\\' ∉ input)
    (hlast : (∀ q ∈ input.getLast?, isQuote q = false) ∨ Unquoted more)
    (hcomment : input = [] → comment = false) : KeptRow comment input more := by
  -- Nothing is dropped at the end, as the value is the whole text. So what follows a blank or a
  -- character of a comment is not empty, and it is a value that ends the text as well.
  fun_induction takeValue comment input generalizing value with
  | case1 comment =>
    rw [hcomment rfl]
    exact .nil more
  | case2 comment c text hc ih =>
    obtain ⟨rfl, hline⟩ : comment = true ∧ c ≠ '\n' := by simpa using hc
    obtain ⟨hvalue, hne⟩ := keepWithin_eq_some (hwhole ▸ h)
    have htext := ih hvalue rfl (List.not_mem_of_not_mem_cons hslash)
      (hlast.imp_left (forall_getLast?_of_append [c])) fun hnil => absurd hnil hne
    exact .inside hline hne htext
  | case3 comment c text hc hstop => cases h
  | case4 comment text hc hstop ih =>
    obtain rfl : comment = false := by simpa using hc
    obtain ⟨hvalue, hne⟩ := keepWithin_eq_some (hwhole ▸ h)
    have htext := ih hvalue rfl (List.not_mem_of_not_mem_cons hslash)
      (hlast.imp_left (forall_getLast?_of_append ['#'])) fun hnil => absurd hnil hne
    exact .sign hne htext
  | case5 comment c text hc hstop hhash hblank ih =>
    obtain ⟨hvalue, hne⟩ := keepWithin_eq_some (hwhole ▸ h)
    have htext := ih hvalue rfl (List.not_mem_of_not_mem_cons hslash)
      (hlast.imp_left (forall_getLast?_of_append [c])) fun _ => rfl
    exact .blank (by simpa using hc) hblank hhash hne htext
  | case6 comment c text hc hstop hhash hblank hquote value after hliteral _ ih =>
    obtain rfl := eq_false_of_quote hc hquote
    obtain ⟨w, -, htext⟩ := exists_append_of_literal hliteral
    obtain ⟨inner, hinner, rfl⟩ := keep_eq_some h
    rw [htext, front_append] at hwhole
    -- What follows the literal is the rest of the value.
    obtain rfl := List.append_cancel_left hwhole
    rw [htext] at hliteral hslash hlast ⊢
    rw [List.mem_append, not_or] at hslash
    have hrest := ih hinner rfl hslash.2 (hlast.imp_left (forall_getLast?_of_append w)) fun _ => rfl
    exact .literal (literal_extend hliteral hlast) hslash.1 hrest
  | case7 => cases h
  | case8 comment c text hc hstop hhash hblank hquote hopening group after hgroup _ ih =>
    obtain rfl : comment = false := eq_false_of_ne_lineFeed hc (by rintro rfl; cases hopening)
    obtain ⟨inner, hinner, rfl⟩ := keep_eq_some h
    -- What follows the group is the rest of the value.
    obtain rfl : after = inner :=
      List.append_cancel_left ((eq_append_of_takeGroup hgroup).symm.trans hwhole.symm)
    rw [← hwhole] at hgroup hslash hlast ⊢
    rw [List.mem_append, not_or] at hslash
    have hrest := ih hinner rfl hslash.2 (hlast.imp_left (forall_getLast?_of_append _)) fun _ => rfl
    exact .group hgroup hslash.1 hrest
  | case9 => cases h
  | case10 comment c text hc hstop hhash hblank hquote hopening ih =>
    obtain rfl : comment = false := eq_false_of_ne_lineFeed hc (by rintro rfl; exact hblank rfl)
    obtain ⟨inner, hinner, rfl⟩ := keep_eq_some h
    obtain rfl : inner = text := (List.cons.inj hwhole).2
    have htext := ih hinner rfl (List.not_mem_of_not_mem_cons hslash)
      (hlast.imp_left (forall_getLast?_of_append [c])) fun _ => rfl
    obtain ⟨hcomma, hclosing⟩ : c ≠ ',' ∧ isClosing c = false := by simpa using hstop
    have hplain : isPlain c = true := by simp [isPlain, hclosing, hhash, hquote, hopening]
    exact .plain hplain hcomma (Bool.eq_false_iff.mpr hblank) htext

theorem IsMap.exists_cons (h : IsMap text) : ∃ tail, text = '{' :: tail := by
  cases text with
  | nil => cases h.opens
  | cons c tail =>
    obtain rfl : c = '{' := by simpa using h.opens
    exact ⟨tail, rfl⟩

theorem IsMap.keptRow (h : IsMap text) (rest : List Char) : KeptRow false text rest :=
  keptRow_of_takeValue rest h.whole rfl h.plain (.inl (by simp [h.closes, isQuote])) fun _ => rfl

theorem IsMap.isValue (h : IsMap text) : IsValue text where
  starts := by
    obtain ⟨tail, rfl⟩ := h.exists_cons
    exact ⟨'{', tail, rfl, rfl, by decide⟩
  unlabelled := by
    obtain ⟨tail, rfl⟩ := h.exists_cons
    exact fun _ _ _ => takeLabel_of_not_isIdentStart (by decide) _
  takes := fun rest _ => (h.keptRow rest).takes
  row := fun rest _ => (h.keptRow rest).row

end Cookbook
