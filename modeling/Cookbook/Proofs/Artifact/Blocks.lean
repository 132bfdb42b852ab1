import Cookbook.Artifact.Body
import Cookbook.Proofs.Text.ScannedGroup
import Cookbook.Proofs.Text.Structural
import Mathlib.Data.List.TakeWhile

/-!
# Blocks in front of other text

The block of a function is found in a prefix of the text from the function on: up to the closing
parenthesis, up to the colon, and up to the first line of code that is not indented deeper. Behind
complete lines that hold all of this, any text may follow.

## Main definitions

* `literalBehind?`: the literal that is open behind lines of a block.
* `Ended`: what has to hold of a function and of the text behind it, so that its block does not
  reach into that text.

## Main results

* `afterSignature_eq_ok_iff`: where the signature of a function ends.
* `block_append`: the block of a function that has ended is the same whatever follows.
-/

namespace Cookbook.Body

open Cookbook.Text

variable {source rest more line before after group result body : List Char} {c : Char}
  {lines others following : List (List Char)} {indent offset : Nat} {depth : Int}
  {quote? : Option Char}

/-! ## The signature -/

theorem colonOf?_append {found : List (Nat × Char)} (h : colonOf? depth found = some offset)
    (others : List (Nat × Char)) : colonOf? depth (found ++ others) = some offset := by
  fun_induction colonOf? depth found
  case case1 | case5 => cases h
  case case2 hopening ih => simpa [colonOf?, hopening] using ih h
  case case3 hopening hclosing ih => simpa [colonOf?, hopening, hclosing] using ih h
  case case4 hopening hclosing hcolon =>
    rw [List.cons_append, colonOf?, if_neg hopening, if_neg hclosing, if_pos hcolon]
    exact h
  case case6 hopening hclosing hcolon hline ih =>
    simpa [colonOf?, hopening, hclosing, hcolon, hline] using ih h

theorem mem_of_colonOf? {found : List (Nat × Char)} (h : colonOf? depth found = some offset) :
    (offset, ':') ∈ found := by
  fun_induction colonOf? depth found
  case case1 | case5 => cases h
  case case4 hcolon =>
    cases h
    rw [hcolon.1]
    exact List.mem_cons_self
  case case2 ih | case3 ih | case6 ih => exact List.mem_cons_of_mem _ (ih h)

theorem dropBytes_openAt (h : breakOn? ['('] source = some (before, after)) :
    dropBytes (byteSize before) source = '(' :: after := by
  rw [append_of_breakOn? h, List.append_assoc, dropBytes_byteSize_append]
  rfl

theorem dropBytes_closeAt (h : breakOn? ['('] source = some (before, after))
    (hgroup : '(' :: after = group ++ c :: result) (hc : isClosing c = true) :
    dropBytes (byteSize before + byteSize group + 1) source = result := by
  have hsize : byteSize before + byteSize group + 1 = byteSize (before ++ (group ++ [c])) := by
    rw [byteSize_append, byteSize_append, (of_isClosing hc).2.2.2, Nat.add_assoc]
  calc dropBytes (byteSize before + byteSize group + 1) source
      = dropBytes (byteSize (before ++ (group ++ [c]))) (before ++ (group ++ [c]) ++ result) := by
        rw [hsize, append_of_breakOn? h, List.append_assoc, List.singleton_append, hgroup]
        simp
    _ = result := dropBytes_byteSize_append _ _

theorem dropBytes_colon (head tail : List Char) :
    dropBytes (byteSize head + 1) (head ++ ':' :: tail) = tail := by
  have hsize : byteSize head + 1 = byteSize (head ++ [':']) := by
    rw [byteSize_append]
    rfl
  rw [hsize, List.append_cons head ':' tail, dropBytes_byteSize_append]

/-- A signature ends with the first colon outside brackets behind the parenthesis that closes the
first one, on the same logical line. -/
theorem afterSignature_eq_ok_iff : afterSignature source = .ok rest ↔
    ∃ before after group c result head,
      breakOn? ['('] source = some (before, after) ∧
      matchingClose? ('(' :: after) = some (byteSize group) ∧
      '(' :: after = group ++ c :: result ∧ isClosing c = true ∧
      colonOf? 0 (structural result) = some (byteSize head) ∧ result = head ++ ':' :: rest := by
  constructor
  · intro h
    -- Each of the three searches cuts the text where it finds something.
    unfold afterSignature at h
    split at h
    · cases h
    · next before after hbreak =>
      simp only [dropBytes_openAt hbreak] at h
      split at h
      · cases h
      · next length hclose =>
        obtain ⟨group, c, result, hgroup, hc, rfl⟩ := exists_of_matchingClose? hclose
        rw [dropBytes_closeAt hbreak hgroup hc] at h
        split at h
        · cases h
        · next colon hcolon =>
          cases h
          obtain ⟨head, tail, htext, hoffset⟩ := standsAt_of_mem_structural (mem_of_colonOf? hcolon)
          obtain rfl : colon = byteSize head := hoffset.trans (Nat.zero_add _)
          refine ⟨before, after, group, c, result, head, hbreak, hclose, hgroup, hc, hcolon, ?_⟩
          rw [htext, dropBytes_colon]
  · rintro ⟨before, after, group, c, result, head, hbreak, hclose, hgroup, hc, hcolon, rfl⟩
    unfold afterSignature
    simp only [hbreak, dropBytes_openAt hbreak, hclose, dropBytes_closeAt hbreak hgroup hc, hcolon,
      dropBytes_colon]

/-- A colon ends the signature. -/
theorem exists_append_of_afterSignature (h : afterSignature source = .ok rest) :
    ∃ signature, source = signature ++ ':' :: rest := by
  obtain ⟨before, after, group, c, result, head, hbreak, -, hgroup, -, -, rfl⟩ :=
    afterSignature_eq_ok_iff.mp h
  refine ⟨before ++ group ++ c :: head, ?_⟩
  rw [append_of_breakOn? hbreak, List.append_assoc, List.singleton_append, hgroup]
  simp

/-- A signature on complete lines ends there whatever follows. -/
theorem afterSignature_append (hlines : IsLines source) (h : afterSignature source = .ok rest)
    (more : List Char) : afterSignature (source ++ more) = .ok (rest ++ more) := by
  obtain ⟨before, after, group, c, result, head, hbreak, hclose, hgroup, hc, hcolon, rfl⟩ :=
    afterSignature_eq_ok_iff.mp h
  have htext : source = before ++ '(' :: after := by
    rw [append_of_breakOn? hbreak, List.append_assoc, List.singleton_append]
  have hafter : IsLines ('(' :: after) := (htext ▸ hlines).right
  have hresult : IsLines (head ++ ':' :: rest) := (hgroup ▸ hafter).right.tail
  obtain ⟨others, hothers⟩ := exists_structural_append hresult more
  -- The parenthesis, the bracket that closes it and the colon are all found in front of the rest.
  refine afterSignature_eq_ok_iff.mpr ⟨before, after ++ more, group, c, head ++ ':' :: rest ++ more,
    head, ?_, matchingClose?_append hafter hclose more, ?_, hc, ?_, ?_⟩
  · rw [htext, List.append_assoc, List.cons_append]
    exact breakOn?_of_not_mem (not_mem_of_breakOn? hbreak) _
  · rw [← List.cons_append, hgroup, List.append_assoc, List.cons_append]
  · rw [hothers]
    exact colonOf?_append hcolon others
  · rw [List.append_assoc, List.cons_append]

/-! ## Open literals -/

theorem openQuote?_none (line : List Char) :
    openQuote? none line = (scan .code 0 line).mode.tripled? := by
  unfold openQuote?
  dsimp only
  cases (scan .code 0 line).mode <;> rfl

theorem openQuote?_some (quote : Char) (line : List Char) :
    openQuote? (some quote) line = (scan (.tripled quote) 0 line).mode.tripled? := by
  unfold openQuote?
  dsimp only
  cases (scan (.tripled quote) 0 line).mode <;> rfl

/-- Only quotes open literals over several lines. -/
theorem isQuote_openQuote? (hquote : ∀ q ∈ quote?, isQuote q = true) (line : List Char) :
    ∀ q ∈ openQuote? quote? line, isQuote q = true := by
  cases quote? with
  | none =>
    rw [openQuote?_none]
    exact (wellQuoted_mode_scan wellQuoted_code 0).tripled
  | some q =>
    have hmode : (Mode.tripled q).WellQuoted := hquote
    rw [openQuote?_some]
    exact (wellQuoted_mode_scan hmode 0).tripled

/-! ## The lines of a block -/

/-- The literal that is open behind lines, if any, when `quote?` is the one that is open in front of
them; no answer if the block ends among the lines. -/
def literalBehind? (indent : Nat) : Option Char → List (List Char) → Option (Option Char)
  | quote?, [] => some quote?
  | quote?, line :: rest =>
    match kindOf quote?.isSome (dropReturns line) with
    | .blank | .comment => literalBehind? indent quote? rest
    | .inLiteral => literalBehind? indent (openQuote? quote? (dropReturns line)) rest
    | .code =>
      if indentWidth (dropReturns line) ≤ indent then none
      else literalBehind? indent (openQuote? quote? (dropReturns line)) rest

/-- A block that ends among some lines does not depend on those behind. -/
theorem blockLines_append_of_ended (h : literalBehind? indent quote? lines = none)
    (others : List (List Char)) :
    blockLines indent quote? (lines ++ others) = blockLines indent quote? lines := by
  fun_induction literalBehind? indent quote? lines
  case case1 => cases h
  case case2 hkind ih | case3 hkind ih | case4 hkind ih =>
    simp only [List.cons_append, blockLines, hkind, ih h]
  case case5 hkind hindent => simp only [List.cons_append, blockLines, hkind, hindent, if_true]
  case case6 hkind hindent ih =>
    simp only [List.cons_append, blockLines, hkind, hindent, if_false, ih h]

/-- A block that does not end among some lines goes on behind them. -/
theorem blockLines_append {behind? : Option Char}
    (h : literalBehind? indent quote? lines = some behind?) (others : List (List Char)) :
    blockLines indent quote? (lines ++ others) =
      blockLines indent quote? lines ++ blockLines indent behind? others := by
  fun_induction literalBehind? indent quote? lines
  case case1 =>
    cases h
    rfl
  case case2 hkind ih | case3 hkind ih | case4 hkind ih =>
    simp only [List.cons_append, blockLines, hkind, ih h]
  case case5 => cases h
  case case6 hkind hindent ih =>
    simp only [List.cons_append, blockLines, hkind, hindent, if_false, ih h]

/-- The first of some lines that is code, if any, is indented no deeper than `indent`. -/
def StopsBlock (indent : Nat) (lines : List (List Char)) : Prop :=
  ∀ line ∈ (lines.map dropReturns).find? fun line => kindOf false line = .code,
    indentWidth line ≤ indent

instance (indent : Nat) (lines : List (List Char)) : Decidable (StopsBlock indent lines) :=
  inferInstanceAs (Decidable (∀ line ∈ List.find? _ _, _))

/-- A line that a block leaves out at its end. -/
def IsIdle (line : LineKind × List Char) : Prop :=
  line.1 = .blank ∨ line.1 = .comment

theorem kindOf_false (line : List Char) :
    kindOf false line = .blank ∨ kindOf false line = .comment ∨ kindOf false line = .code := by
  rw [kindOf, if_neg Bool.false_ne_true]
  split <;> simp

/-- A block takes nothing but idle lines from lines that stop it. -/
theorem isIdle_of_stopsBlock (h : StopsBlock indent lines) :
    ∀ line ∈ blockLines indent none lines, IsIdle line := by
  induction lines with
  | nil => exact fun _ hline => by cases hline
  | cons line lines ih =>
    rw [StopsBlock, List.map_cons, List.find?_cons] at h
    rw [blockLines, Option.isSome_none]
    rcases kindOf_false (dropReturns line) with hkind | hkind | hkind
    · simp only [hkind, reduceCtorEq, decide_false] at h
      simp only [hkind]
      exact List.forall_mem_cons.mpr ⟨.inl rfl, ih h⟩
    · simp only [hkind, reduceCtorEq, decide_false] at h
      simp only [hkind]
      exact List.forall_mem_cons.mpr ⟨.inr rfl, ih h⟩
    · simp only [hkind, decide_true] at h
      simp only [hkind, if_pos (h _ rfl), List.not_mem_nil, false_implies, implies_true]

/-! ## Dedenting -/

/-- Within an indent there is nothing else. -/
theorem isIndent_of_mem_take {width : Nat} (h : width ≤ indentWidth line) :
    ∀ c ∈ line.take width, isIndent c = true := by
  have htake : line.take width = (line.takeWhile isIndent).take width := by
    have happend := @List.take_append_of_le_length _ _ (line.dropWhile isIndent) _ h
    rw [← happend, List.takeWhile_append_dropWhile]
  rw [htake]
  exact fun c hc => List.mem_takeWhile_imp (List.mem_of_mem_take hc)

variable {front idle : List (LineKind × List Char)}

/-- The lines of code, and their indents. -/
theorem codeIndent?_eq_min? (lines : List (LineKind × List Char)) :
    codeIndent? lines =
      ((lines.filter fun line => line.1 = .code).map fun line => indentWidth line.2).min? := by
  unfold codeIndent?
  congr 1
  induction lines with
  | nil => rfl
  | cons line lines ih =>
    by_cases hkind : line.1 = .code
    · simpa [hkind] using ih
    · simpa [hkind] using ih

/-- Idle lines around a block do not count for its indent. -/
theorem codeIndent?_between {before : List (LineKind × List Char)}
    (hbefore : ∀ line ∈ before, IsIdle line) (hidle : ∀ line ∈ idle, IsIdle line) :
    codeIndent? (before ++ (front ++ idle)) = codeIndent? front := by
  have hnone : ∀ lines : List (LineKind × List Char), (∀ line ∈ lines, IsIdle line) →
      lines.filter (fun line => line.1 = .code) = [] := by
    intro lines hlines
    refine List.filter_eq_nil_iff.mpr fun line hline => ?_
    rcases hlines line hline with hkind | hkind <;> simp [hkind]
  rw [codeIndent?_eq_min?, List.filter_append, List.filter_append, hnone before hbefore,
    hnone idle hidle, List.nil_append, List.append_nil, codeIndent?_eq_min?]

theorem codeIndent?_append_idle (h : ∀ line ∈ idle, IsIdle line) :
    codeIndent? (front ++ idle) = codeIndent? front :=
  @codeIndent?_between front idle [] (List.forall_mem_nil _) h

theorem exists_code_of_codeIndent? (h : codeIndent? front ≠ none) :
    ∃ line ∈ front, line.1 = LineKind.code := by
  rw [codeIndent?, ne_eq, List.min?_eq_none_iff] at h
  obtain ⟨width, hwidth⟩ := List.exists_mem_of_ne_nil _ h
  obtain ⟨line, hline, hcode⟩ := List.mem_filterMap.mp hwidth
  refine ⟨line, hline, ?_⟩
  by_cases hkind : line.1 = .code
  · exact hkind
  · simp [hkind] at hcode

/-- No line of code is indented less than the block. -/
theorem le_of_codeIndent? {kind : LineKind} {lines : List (LineKind × List Char)}
    (h : codeIndent? lines = some indent) (hline : (kind, line) ∈ lines) (hkind : kind = .code) :
    indent ≤ indentWidth line := by
  rw [codeIndent?_eq_min?] at h
  have hcode : (kind, line) ∈ lines.filter fun line => line.1 = .code :=
    List.mem_filter.mpr ⟨hline, decide_eq_true hkind⟩
  exact (List.min?_eq_some_iff.mp h).2 _ (List.mem_map_of_mem hcode)

theorem exists_dropWhile {α : Type} {p : α → Bool} {items : List α} (h : ∃ a ∈ items, p a = false) :
    ∃ front a rest, items = front ++ a :: rest ∧ items.dropWhile p = a :: rest ∧
      (∀ b ∈ front, p b = true) ∧ p a = false := by
  induction items with
  | nil => simp at h
  | cons b items ih =>
    by_cases hb : p b = true
    · obtain ⟨c, hc, hpc⟩ := h
      have hmem : c ∈ items := by
        rcases List.mem_cons.mp hc with rfl | hmem
        · rw [hb] at hpc
          cases hpc
        · exact hmem
      obtain ⟨front, a, rest, rfl, hdrop, hfront, ha⟩ := ih ⟨c, hmem, hpc⟩
      refine ⟨b :: front, a, rest, rfl, ?_, List.forall_mem_cons.mpr ⟨hb, hfront⟩, ha⟩
      rw [List.dropWhile_cons_of_pos hb, hdrop]
    · exact ⟨[], b, items, rfl, List.dropWhile_cons_of_neg hb, List.forall_mem_nil _, by simpa using hb⟩

/-- A block with code in it stands between blank lines and idle ones. -/
theorem exists_append_trimBlock {lines : List (LineKind × List Char)}
    (hcode : ∃ line ∈ lines, line.1 = LineKind.code) :
    ∃ blanks init last idle, lines = blanks ++ (init ++ last :: idle) ∧
      trimBlock lines = init ++ [last] ∧ (∀ line ∈ blanks, line.1 = .blank) ∧
      (∀ line ∈ (init ++ [last]).head?, line.1 ≠ .blank) ∧
      (last.1 = .code ∨ last.1 = .inLiteral) ∧ ∀ line ∈ idle, IsIdle line := by
  obtain ⟨line, hline, hkind⟩ := hcode
  obtain ⟨blanks, first, rest, rfl, hstarted, hblanks, hfirst⟩ :=
    @exists_dropWhile _ (fun (line : LineKind × List Char) => decide (line.1 = .blank)) lines
      ⟨line, hline, by simp [hkind]⟩
  -- The line of code is none of the blank ones in front, so the search from behind finds a line.
  have hmem : line ∈ (first :: rest).reverse := by
    rw [List.mem_reverse]
    rcases List.mem_append.mp hline with hmem | hmem
    · have hblank := hblanks _ hmem
      simp [hkind] at hblank
    · exact hmem
  obtain ⟨idle, last, init, hreverse, hkept, hidle, hlast⟩ :=
    @exists_dropWhile _
      (fun (line : LineKind × List Char) => decide (line.1 = .blank ∨ line.1 = .comment))
      (first :: rest).reverse ⟨line, hmem, by simp [hkind]⟩
  have hstarts : first :: rest = init.reverse ++ last :: idle.reverse := by
    rw [← List.reverse_reverse (first :: rest), hreverse]
    simp
  have htrim : trimBlock (blanks ++ first :: rest) = init.reverse ++ [last] := by
    unfold trimBlock
    dsimp only
    rw [hstarted, hkept, List.reverse_cons]
  refine ⟨blanks, init.reverse, last, idle.reverse, by rw [hstarts], htrim, ?_, ?_, ?_, ?_⟩
  · exact fun line hline => of_decide_eq_true (hblanks line hline)
  · intro line hline
    have hhead : (first :: rest).head? = some line := by
      rw [hstarts, List.append_cons, List.head?_append, Option.mem_def.mp hline]
      rfl
    cases hhead
    exact of_decide_eq_false hfirst
  · have hlast := of_decide_eq_false hlast
    cases hlastKind : last.1 <;> simp_all
  · intro line hline
    have hidle := hidle line (List.mem_reverse.mp hline)
    rwa [decide_eq_true_eq] at hidle

/-- Idle lines behind a block with code in it are left out. -/
theorem trimBlock_append_idle (hcode : codeIndent? front ≠ none) (h : ∀ line ∈ idle, IsIdle line) :
    trimBlock (front ++ idle) = trimBlock front := by
  have hidle : ∀ line ∈ idle.reverse, decide (line.1 = .blank ∨ line.1 = .comment) = true :=
    fun line hline => decide_eq_true (h line (List.mem_reverse.mp hline))
  obtain ⟨line, hline, hkind⟩ := exists_code_of_codeIndent? hcode
  have hstart : front.dropWhile (fun line => decide (line.1 = .blank)) ≠ [] := by
    intro hnil
    have hblank := List.dropWhile_eq_nil_iff.mp hnil line hline
    simp [hkind] at hblank
  unfold trimBlock
  dsimp only
  rw [List.dropWhile_append, if_neg (by simpa using hstart), List.reverse_append,
    List.dropWhile_append_of_pos hidle]

/-- What a block of some lines reads without its indent. -/
def blockText (lines : List (LineKind × List Char)) : Except Error (List Char) :=
  match codeIndent? lines with
  | none => .error .emptyBody
  | some indent => .ok (joinLines ((trimBlock lines).map (dedent indent)))

theorem blockText_append_idle (h : ∀ line ∈ idle, IsIdle line) :
    blockText (front ++ idle) = blockText front := by
  rw [blockText, codeIndent?_append_idle h, blockText]
  cases hcode : codeIndent? front with
  | none => rfl
  | some indent => rw [trimBlock_append_idle (by simp [hcode]) h]

/-! ## Blocks that have ended -/

/-- A suite on the line of the signature. -/
def IsSuite (line : List Char) : Prop :=
  trim line ≠ [] ∧ (trim line).head? ≠ some '#'

instance (line : List Char) : Decidable (IsSuite line) :=
  inferInstanceAs (Decidable (_ ∧ _))

/-- The signature of the function that starts a text ends in front of a text with these lines: the
rest of its own line, and those that follow. -/
def SignedBy (source sameLine : List Char) (following : List (List Char)) : Prop :=
  ∃ rest, afterSignature source = .ok rest ∧ splitLines rest = sameLine :: following

/-- The function that starts `source` does not reach into the text `after` behind it. -/
inductive Ended (source after : List Char) : Prop where
  /-- The body is a suite on the line of the signature. -/
  | suite {sameLine : List Char} {following : List (List Char)}
      (h : SignedBy source sameLine following) (hsuite : IsSuite sameLine)
  /-- A line of code that is not indented deeper than the function ends the block. -/
  | inside {sameLine : List Char} {following : List (List Char)}
      (h : SignedBy source sameLine following)
      (hended : literalBehind? (indentWidth (firstLine source)) none following = none)
  /-- The block runs to the end of `source` and leaves no literal open there, and what follows
  stops it. -/
  | atEnd {sameLine : List Char} {following : List (List Char)}
      (h : SignedBy source sameLine following)
      (hclosed : literalBehind? (indentWidth (firstLine source)) none following = some none)
      (hstops : StopsBlock (indentWidth (firstLine source)) (splitLines after))

variable {sameLine : List Char}

/-- Whatever has a block has a signature. -/
theorem exists_signedBy (h : block source = .ok body) :
    ∃ sameLine following, SignedBy source sameLine following := by
  unfold block at h
  split at h
  · cases h
  · next rest hrest =>
    obtain ⟨sameLine, following, hsplit⟩ := List.exists_cons_of_ne_nil (splitLines_ne_nil rest)
    exact ⟨sameLine, following, rest, hrest, hsplit⟩

/-- No line behind a signature holds a line feed. -/
theorem SignedBy.forall_lines (h : SignedBy source sameLine following) :
    ∀ line ∈ sameLine :: following, '\n' ∉ line := by
  obtain ⟨rest, -, hsplit⟩ := h
  exact fun line hline => lineFeed_not_mem_of_mem_splitLines (hsplit ▸ hline)

theorem block_of_signedBy (h : SignedBy source sameLine following) :
    block source =
      if IsSuite sameLine then .ok (trim sameLine)
      else blockText (blockLines (indentWidth (firstLine source)) none following) := by
  obtain ⟨rest, hrest, hsplit⟩ := h
  have hsuite : (!(trim sameLine).isEmpty && (trim sameLine).head? != some '#') = true ↔
      IsSuite sameLine := by
    simp [IsSuite]
  unfold block
  simp only [hrest, hsplit, hsuite]
  rfl

/-- A function on complete lines is read from them whatever follows, which begins with other
lines. -/
theorem SignedBy.append (hlines : IsLines source) (h : SignedBy source sameLine following) :
    ∃ inside, following = inside ++ [[]] ∧
      ∀ after, SignedBy (source ++ after) sameLine (inside ++ splitLines after) := by
  obtain ⟨rest, hrest, hsplit⟩ := h
  obtain ⟨signature, hsource⟩ := exists_append_of_afterSignature hrest
  have hcolon : IsLines (':' :: rest) := (hsource ▸ hlines).right
  -- A colon does not end a line, so there is a line feed behind it.
  obtain ⟨body, rfl⟩ := hcolon.tail.exists_eq_append (hcolon.ne_nil_of_ne (by decide))
  cases hbody : splitLines body with
  | nil => exact absurd hbody (splitLines_ne_nil body)
  | cons first inside =>
    have hfirst : first :: (inside ++ [[]]) = sameLine :: following := by
      rw [← hsplit, splitLines_append, hbody]
      rfl
    obtain ⟨rfl, rfl⟩ := List.cons.inj hfirst
    refine ⟨inside, rfl, fun after => ⟨body ++ ['\n'] ++ after,
      afterSignature_append hlines hrest after, ?_⟩⟩
    rw [List.append_assoc, List.singleton_append, splitLines_append, hbody]
    rfl

theorem firstLine_append (h : IsLines source) (hne : source ≠ []) (after : List Char) :
    firstLine (source ++ after) = firstLine source := by
  rw [firstLine, fullLines_append h, firstLine]
  cases hlines : fullLines source with
  | nil => exact absurd (fullLines_eq_nil_iff.mp hlines) hne
  | cons line lines => rfl

theorem literalBehind?_append (indent : Nat) (quote? : Option Char)
    (lines others : List (List Char)) :
    literalBehind? indent quote? (lines ++ others) =
      (literalBehind? indent quote? lines).bind (literalBehind? indent · others) := by
  fun_induction literalBehind? indent quote? lines
  case case1 => rfl
  case case2 hkind ih | case3 hkind ih | case4 hkind ih =>
    simp only [List.cons_append, literalBehind?, hkind, ih]
  case case5 hkind hindent =>
    simp only [List.cons_append, literalBehind?, hkind, hindent, if_true, Option.bind_none]
  case case6 hkind hindent ih =>
    simp only [List.cons_append, literalBehind?, hkind, hindent, if_false, ih]

/-- An empty line opens and closes nothing. -/
theorem literalBehind?_append_empty :
    literalBehind? indent quote? (lines ++ [[]]) = literalBehind? indent quote? lines := by
  have hempty : ∀ quote?, literalBehind? indent quote? [[]] = some quote? := by
    intro quote?
    cases quote? <;> rfl
  rw [literalBehind?_append, funext hempty, Option.bind_fun_some]

/-- The block of a function that has ended is the same whatever follows. -/
theorem block_append (hlines : IsLines source) (h : Ended source after) :
    block (source ++ after) = block source := by
  have hne : ∀ {sameLine following}, SignedBy source sameLine following → source ≠ [] := by
    rintro sameLine following ⟨rest, hrest, -⟩ rfl
    cases hrest
  cases h with
  | suite h hsuite =>
    obtain ⟨inside, -, happend⟩ := h.append hlines
    rw [block_of_signedBy (happend after), block_of_signedBy h, if_pos hsuite, if_pos hsuite]
  | inside h hended =>
    obtain ⟨inside, rfl, happend⟩ := h.append hlines
    -- The empty line behind the last line feed is not there if the text goes on.
    rw [literalBehind?_append_empty] at hended
    rw [block_of_signedBy (happend after), block_of_signedBy h, firstLine_append hlines (hne h),
      blockLines_append_of_ended hended, blockLines_append_of_ended hended]
  | atEnd h hclosed hstops =>
    obtain ⟨inside, rfl, happend⟩ := h.append hlines
    have hempty : StopsBlock (indentWidth (firstLine source)) [[]] := fun _ hline => by cases hline
    rw [literalBehind?_append_empty] at hclosed
    rw [block_of_signedBy (happend after), block_of_signedBy h, firstLine_append hlines (hne h),
      blockLines_append hclosed, blockLines_append hclosed,
      blockText_append_idle (isIdle_of_stopsBlock hstops),
      blockText_append_idle (isIdle_of_stopsBlock hempty)]

end Cookbook.Body
