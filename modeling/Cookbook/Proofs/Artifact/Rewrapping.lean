import Cookbook.Proofs.Artifact.BlockLines
import Cookbook.Proofs.Except

/-!
# Wrapping a body again

A body that has been taken from a function, indented and put into another function, is taken from
that one as it was. Each of its lines is of the same kind in either function and leaves the same
literal open, and what is dedented there is what has been indented here.

## Main definitions

* `Sliced`: the lines that a body is made of.
* `rewrap`: a body in a function of its own.

## Main results

* `exists_sliced`: every body is made of lines of a block.
* `Classified.rewrapped`: these are lines of a block in another function, too.
* `block_rewrap`: a body is the body of every function that it is put into.
-/

namespace Cookbook.Body

open Cookbook.Text

variable {source line body indent deeper : List Char} {kind : LineKind} {quote? : Option Char}
  {least : Nat} {lines : List (LineKind × List Char)} {raws : List (List Char)}

/-! ## Bodies -/

/-- The lines of a block that make up a body: the first one is not blank, and the last one is not
idle. -/
structure Sliced (body : List Char) (lines : List (LineKind × List Char)) (least : Nat) : Prop where
  classified : Classified none lines
  least_eq : codeIndent? lines = some least
  first : ∀ line ∈ lines.head?, line.1 ≠ .blank
  last : ∀ line ∈ lines.getLast?, ¬IsIdle line
  splitLines_eq : splitLines body = lines.map (dedent least)

theorem Sliced.forall_le (h : Sliced body lines least) :
    ∀ line ∈ lines, line.1 = .code → least ≤ indentWidth line.2 := by
  rintro ⟨kind, line⟩ hline
  exact le_of_codeIndent? h.least_eq hline

/-- A suite is a body of one line. -/
theorem sliced_of_isSuite (h : IsSuite line) (hline : '\n' ∉ line) :
    Sliced (trim line) [(.code, trim line)] 0 := by
  -- A line that is trimmed starts with no blank and ends with none, so it has no indent and no
  -- carriage return at its end.
  have hbare : '\n' ∉ trim line := (surrounds_trim line).not_mem hline
  have hlast : ∀ c ∈ (trim line).getLast?, isBlank c = false := eq_false_of_mem_getLast?
  obtain ⟨c, rest, htrim⟩ := List.exists_cons_of_ne_nil h.1
  have hblank : isBlank c = false := isBlank_head?_trim (by rw [htrim]; rfl)
  -- It is code, because a suite is not empty and no comment.
  have hkind : kindOf false (trim line) = .code := by
    have hhash : c ≠ '#' := by
      rintro rfl
      exact h.2 (by rw [htrim]; rfl)
    have hstart : trimStart (c :: rest) = c :: rest :=
      List.dropWhile_cons_of_neg (by simp [hblank])
    simp [htrim, kindOf, hstart, hhash]
  have hwidth : indentWidth (trim line) = 0 := by
    have hindent : isIndent c = false := by
      cases hindent : isIndent c with
      | false => rfl
      | true => rw [isBlank_of_isIndent hindent] at hblank; cases hblank
    simp [htrim, indentWidth, hindent]
  have hcode : HasKind none .code (trim line) :=
    { isQuote := fun _ hq => by cases hq
      noLineFeed := hbare
      noReturn := by
        rintro d hd rfl
        cases hlast '\r' hd
      kind_eq := hkind }
  constructor
  case classified => exact .cons hcode .nil
  case least_eq => simp [codeIndent?, hwidth]
  case first => simp
  case last => simp [IsIdle]
  case splitLines_eq =>
    rw [splitLines_of_not_mem hbare, List.map_singleton, dedent, List.drop_zero, trimEnd,
      dropEndWhile_eq_self hlast]

/-- What is left of the lines of a block without the blank ones in front and the idle ones behind. -/
theorem exists_sliced_of_blockText (h : Classified none lines) (hbody : blockText lines = .ok body) :
    ∃ kept least, Sliced body kept least := by
  unfold blockText at hbody
  split at hbody
  · cases hbody
  · next least hleast =>
    cases hbody
    have hcode : codeIndent? lines ≠ none := by
      rw [hleast]
      exact Option.some_ne_none least
    obtain ⟨blanks, init, last, idle, rfl, htrim, hblanks, hfirst, hlast, hidle⟩ :=
      exists_append_trimBlock (exists_code_of_codeIndent? hcode)
    -- The blank lines in front open no literal, so that the other lines begin a block as well.
    obtain ⟨hfront, hback⟩ := h.of_append
    rw [hfront.openBehind_of_blank hblanks, List.append_cons] at hback
    have hkept : Classified none (init ++ [last]) := hback.of_append.1
    have hleast : codeIndent? (init ++ [last]) = some least := by
      rw [← hleast, List.append_cons init last idle,
        codeIndent?_between (fun line hline => .inl (hblanks line hline)) hidle]
    refine ⟨init ++ [last], least, hkept, hleast, hfirst, ?_, ?_⟩
    · rw [List.getLast?_concat]
      intro line hline
      obtain rfl := Option.some.inj hline
      rcases hlast with hkind | hkind <;> simp [IsIdle, hkind]
    · rw [htrim]
      refine splitLines_joinLines (by simp) (List.forall_mem_map.mpr ?_)
      rintro ⟨kind, line⟩ hline
      obtain ⟨_, hkind⟩ := hkept.exists_hasKind _ hline
      exact (hkind.surrounds (le_of_codeIndent? hleast hline)).not_mem hkind.noLineFeed

/-- Every body is made of lines of a block. -/
theorem exists_sliced (h : block source = .ok body) :
    ∃ lines least, Sliced body lines least := by
  obtain ⟨sameLine, following, hsigned⟩ := exists_signedBy h
  have hlines := hsigned.forall_lines
  rw [List.forall_mem_cons] at hlines
  rw [block_of_signedBy hsigned] at h
  split at h
  · next hsuite =>
    cases h
    exact ⟨_, _, sliced_of_isSuite hsuite hlines.1⟩
  · exact exists_sliced_of_blockText (classified_blockLines (fun _ hq => by cases hq) hlines.2) h

/-! ## Indenting -/

/-- A line with an indent in front, unless it is empty. -/
def indentLine (deeper line : List Char) : List Char :=
  if line.isEmpty then [] else deeper ++ line

theorem surrounds_indentLine (hdeeper : ∀ c ∈ deeper, isIndent c = true) (line : List Char) :
    Surrounds (indentLine deeper line) line := by
  cases line with
  | nil => exact ⟨[], [], rfl, List.forall_mem_nil _, List.forall_mem_nil _⟩
  | cons c line =>
    exact ⟨deeper, [], by simp [indentLine], fun c hc => isBlank_of_isIndent (hdeeper c hc),
      List.forall_mem_nil _⟩

theorem noLineFeed_indentLine (hdeeper : ∀ c ∈ deeper, isIndent c = true) (h : '\n' ∉ line) :
    '\n' ∉ indentLine deeper line := by
  unfold indentLine
  split
  · exact List.not_mem_nil
  · rw [List.mem_append, not_or]
    refine ⟨fun hmem => ?_, h⟩
    cases hdeeper '\n' hmem

theorem noReturn_indentLine (h : ∀ c ∈ line.getLast?, c ≠ '\r') :
    ∀ c ∈ (indentLine deeper line).getLast?, c ≠ '\r' := by
  cases line with
  | nil => exact fun c hc => by cases hc
  | cons c line =>
    intro d hd
    rw [indentLine, List.isEmpty_cons, if_neg Bool.false_ne_true, List.getLast?_append,
      List.getLast?_cons, Option.some_or, ← List.getLast?_cons] at hd
    exact h d hd

theorem openQuote?_indentLine (hdeeper : ∀ c ∈ deeper, isIndent c = true) (hline : '\n' ∉ line)
    (hquote : ∀ q ∈ quote?, isQuote q = true) :
    openQuote? quote? (indentLine deeper line) = openQuote? quote? line :=
  (surrounds_indentLine hdeeper line).openQuote?_eq (noLineFeed_indentLine hdeeper hline) hquote

theorem openBehind_indentLine (hdeeper : ∀ c ∈ deeper, isIndent c = true)
    (hquote : ∀ q ∈ quote?, isQuote q = true) (hlines : ∀ line ∈ raws, '\n' ∉ line) :
    openBehind quote? (raws.map (indentLine deeper)) = openBehind quote? raws := by
  induction raws generalizing quote? with
  | nil => rfl
  | cons raw raws ih =>
    rw [List.forall_mem_cons] at hlines
    rw [List.map_cons, openBehind, List.foldl_cons, openQuote?_indentLine hdeeper hlines.1 hquote]
    exact ih (isQuote_openQuote? hquote raw) hlines.2

/-- An indent in front of a line adds to the one that it has. -/
theorem indentWidth_indentLine (hdeeper : ∀ c ∈ deeper, isIndent c = true) (hne : line ≠ []) :
    indentWidth (indentLine deeper line) = deeper.length + indentWidth line := by
  rw [indentLine, if_neg (by simpa using hne), indentWidth, List.takeWhile_append_of_pos hdeeper,
    List.length_append]
  rfl

theorem drop_indentLine (line : List Char) : (indentLine deeper line).drop deeper.length = line := by
  cases line with
  | nil => simp [indentLine]
  | cons c line => simp [indentLine]

/-- A line that has been dedented is the same after another indent and dedent. -/
theorem dedent_indentLine (hdeeper : ∀ c ∈ deeper, isIndent c = true) (line : List Char) :
    dedent deeper.length (kind, indentLine deeper (dedent least (kind, line))) =
      dedent least (kind, line) := by
  cases kind with
  | blank => rfl
  | code =>
    rw [dedent, drop_indentLine]
    exact dropEndWhile_eq_self eq_false_of_mem_getLast?
  | comment | inLiteral =>
    cases hbody : dedent least (_, line) with
    | nil => simp [dedent, indentLine]
    | cons c body =>
      rw [dedent, indentWidth_indentLine hdeeper (List.cons_ne_nil c body),
        Nat.min_eq_right (Nat.le_add_right _ _), drop_indentLine]

/-! ## Lines wrapped again -/

/-- A line of a block as it stands in another one, in which it is indented by `deeper`. -/
def rewrapLine (deeper : List Char) (least : Nat) (line : LineKind × List Char) :
    LineKind × List Char :=
  (line.1, indentLine deeper (dedent least line))

/-- A line that is dedented and indented again is of the same kind. -/
theorem HasKind.rewrapped (h : HasKind quote? kind line)
    (hleast : kind = .code → least ≤ indentWidth line) (hdeeper : ∀ c ∈ deeper, isIndent c = true) :
    HasKind quote? kind (indentLine deeper (dedent least (kind, line))) where
  isQuote := h.isQuote
  noLineFeed := noLineFeed_indentLine hdeeper ((h.surrounds hleast).not_mem h.noLineFeed)
  noReturn := noReturn_indentLine (noReturn_dedent h.noReturn)
  kind_eq := by
    rw [(surrounds_indentLine hdeeper _).kindOf_eq, ← (h.surrounds hleast).kindOf_eq, h.kind_eq]

theorem Classified.rewrapped (h : Classified quote? lines)
    (hleast : ∀ line ∈ lines, line.1 = .code → least ≤ indentWidth line.2)
    (hdeeper : ∀ c ∈ deeper, isIndent c = true) :
    Classified quote? (lines.map (rewrapLine deeper least)) := by
  induction h with
  | nil => exact .nil
  | @cons quote? kind line lines hline _ ih =>
    rw [List.forall_mem_cons] at hleast
    have hbare := (hline.surrounds hleast.1).not_mem hline.noLineFeed
    refine .cons (hline.rewrapped hleast.1 hdeeper) ?_
    rw [openQuote?_indentLine hdeeper hbare hline.isQuote, hline.openQuote?_dedent hleast.1]
    exact ih hleast.2

/-- Code that is wrapped again is indented by `deeper` and what it had more than the least indent. -/
theorem HasKind.indentWidth_rewrapped (h : HasKind quote? .code line)
    (hleast : least ≤ indentWidth line) (hdeeper : ∀ c ∈ deeper, isIndent c = true) :
    indentWidth (indentLine deeper (dedent least (.code, line))) =
      deeper.length + indentWidth (dedent least (.code, line)) := by
  refine indentWidth_indentLine hdeeper fun hnil => ?_
  have hkind := (h.surrounds fun _ => hleast).kindOf_eq quote?.isSome
  rw [h.kind_eq, hnil] at hkind
  cases quote? <;> cases hkind

/-- Code with the least indent loses all of it. -/
theorem indentWidth_dedent (line : List Char) :
    indentWidth (dedent (indentWidth line) (.code, line)) = 0 := by
  have hdrop : line.drop (indentWidth line) = line.dropWhile isIndent := by
    have hparts := @List.drop_left _ (line.takeWhile isIndent) (line.dropWhile isIndent)
    rwa [List.takeWhile_append_dropWhile] at hparts
  rw [dedent, hdrop, indentWidth]
  cases hbody : trimEnd (line.dropWhile isIndent) with
  | nil => rfl
  | cons c body =>
    have hhead := List.head?_dropWhile_not isIndent line
    rw [head?_trimEnd (by rw [hbody]; rfl)] at hhead
    have hc : isIndent c = false := by simpa using hhead
    simp [hc]

theorem Sliced.codeIndent?_rewrapped (h : Sliced body lines least)
    (hdeeper : ∀ c ∈ deeper, isIndent c = true) :
    codeIndent? (lines.map (rewrapLine deeper least)) = some deeper.length := by
  have hwidth : ∀ line ∈ lines, line.1 = .code → indentWidth (rewrapLine deeper least line).2 =
      deeper.length + indentWidth (dedent least line) := by
    rintro ⟨kind, line⟩ hline rfl
    obtain ⟨_, hkind⟩ := h.classified.exists_hasKind _ hline
    exact hkind.indentWidth_rewrapped (h.forall_le _ hline rfl) hdeeper
  have hleast := h.least_eq
  rw [codeIndent?_eq_min?, List.min?_eq_some_iff] at hleast ⊢
  obtain ⟨hmem, -⟩ := hleast
  obtain ⟨⟨kind, line⟩, hline, rfl⟩ := List.mem_map.mp hmem
  obtain ⟨hline, hcode⟩ := List.mem_filter.mp hline
  obtain rfl : kind = .code := of_decide_eq_true hcode
  -- The line with the least indent has lost it, and so it is indented by `deeper` alone.
  constructor
  · refine List.mem_map.mpr ⟨_, List.mem_filter.mpr ⟨List.mem_map_of_mem hline, rfl⟩, ?_⟩
    rw [hwidth _ hline rfl, indentWidth_dedent, Nat.add_zero]
  · intro width hwidths
    obtain ⟨_, hmem, rfl⟩ := List.mem_map.mp hwidths
    obtain ⟨hmem, hcode⟩ := List.mem_filter.mp hmem
    obtain ⟨other, hother, rfl⟩ := List.mem_map.mp hmem
    rw [hwidth other hother (of_decide_eq_true hcode)]
    exact Nat.le_add_right _ _

/-- A block that starts with a line that is not blank and ends with one that is not idle is kept. -/
theorem trimBlock_eq_self (hfirst : ∀ line ∈ lines.head?, line.1 ≠ .blank)
    (hlast : ∀ line ∈ lines.getLast?, ¬IsIdle line) : trimBlock lines = lines := by
  have hstart : lines.dropWhile (fun line => decide (line.1 = .blank)) = lines := by
    cases lines with
    | nil => rfl
    | cons line lines => exact List.dropWhile_cons_of_neg (by simpa using hfirst line rfl)
  have hend : lines.reverse.dropWhile
      (fun line => decide (line.1 = .blank ∨ line.1 = .comment)) = lines.reverse := by
    cases hreverse : lines.reverse with
    | nil => rfl
    | cons line front =>
      have hline := hlast line (by rw [← List.head?_reverse, hreverse]; rfl)
      exact List.dropWhile_cons_of_neg (by simpa [IsIdle] using hline)
  unfold trimBlock
  dsimp only
  rw [hstart, hend, List.reverse_reverse]

/-- The lines of a body, wrapped again, make up this body. -/
theorem Sliced.blockText_rewrapped (h : Sliced body lines least)
    (hdeeper : ∀ c ∈ deeper, isIndent c = true) :
    blockText (lines.map (rewrapLine deeper least)) = .ok body := by
  -- Lines that were sliced have nothing to trim at either end, and rewrapping keeps their kinds.
  have htrim : trimBlock (lines.map (rewrapLine deeper least)) =
      lines.map (rewrapLine deeper least) := by
    apply trimBlock_eq_self
    · rw [List.head?_map]
      intro _ hmem
      obtain ⟨line, hline, rfl⟩ := Option.map_eq_some_iff.mp hmem
      exact h.first line hline
    · rw [List.getLast?_map]
      intro _ hmem
      obtain ⟨line, hline, rfl⟩ := Option.map_eq_some_iff.mp hmem
      exact h.last line hline
  have hdedent : (lines.map (rewrapLine deeper least)).map (dedent deeper.length) =
      splitLines body := by
    rw [List.map_map, h.splitLines_eq]
    exact List.map_congr_left fun line _ => dedent_indentLine hdeeper line.2
  unfold blockText
  rw [h.codeIndent?_rewrapped hdeeper]
  dsimp only
  rw [htrim, hdedent, joinLines_splitLines]

/-! ## Functions around bodies -/

/-- A body in a function of its own: the function is indented by `indent`, and the lines of the body
by `deeper`, unless they are empty. -/
def rewrap (indent deeper body : List Char) : List Char :=
  indent ++ "def f():\n".toList ++ joinLines ((splitLines body).map (indentLine deeper))

theorem isLines_def (indent : List Char) : IsLines (indent ++ "def f():\n".toList) := by
  intro c hc
  rw [List.getLast?_append] at hc
  exact (Option.some.inj hc).symm

theorem signedBy_def (hindent : ∀ c ∈ indent, isIndent c = true) (text : List Char) :
    SignedBy (indent ++ "def f():\n".toList ++ text) [] (splitLines text) := by
  have hparenthesis : '(' ∉ indent ++ "def f".toList := by
    rw [List.mem_append, not_or]
    refine ⟨fun hmem => ?_, by decide⟩
    cases hindent '(' hmem
  have hsignature : afterSignature (indent ++ "def f():\n".toList) = .ok ['\n'] := by
    refine afterSignature_eq_ok_iff.mpr ⟨indent ++ "def f".toList, "):\n".toList, ['('], ')',
      ":\n".toList, [], ?_, by decide, rfl, rfl, by decide, rfl⟩
    rw [show indent ++ "def f():\n".toList = indent ++ "def f".toList ++ '(' :: "):\n".toList by simp]
    exact breakOn?_of_not_mem hparenthesis _
  exact ⟨_, afterSignature_append (isLines_def indent) hsignature text, rfl⟩

theorem indentWidth_def (hindent : ∀ c ∈ indent, isIndent c = true) (text : List Char) :
    indentWidth (firstLine (indent ++ "def f():\n".toList ++ text)) = indent.length := by
  have hline : '\n' ∉ indent ++ "def f():".toList := by
    rw [List.mem_append, not_or]
    refine ⟨fun hmem => ?_, by decide⟩
    cases hindent '\n' hmem
  have hreturn : ∀ c ∈ (indent ++ "def f():".toList).getLast?, c ≠ '\r' := by
    intro c hc
    rw [List.getLast?_append] at hc
    rw [← Option.some.inj hc]
    decide
  have htext : indent ++ "def f():\n".toList ++ text =
      indent ++ "def f():".toList ++ '\n' :: text := by
    simp
  rw [htext, firstLine_append_lineFeed hline hreturn, indentWidth,
    List.takeWhile_append_of_pos hindent, List.length_append]
  rfl

/-- Lines that are wrapped again make up the body of the function that they stand in, and so they do
with idle lines behind them. -/
theorem Sliced.block_eq (h : Sliced body lines least) (hindent : ∀ c ∈ indent, isIndent c = true)
    (hdeeper : ∀ c ∈ deeper, isIndent c = true) (hlt : indent.length < deeper.length)
    {text : List Char} {others : List (List Char)}
    (htext : splitLines text = (splitLines body).map (indentLine deeper) ++ others)
    (hidle : ∀ line ∈ blockLines indent.length (openBehind none (splitLines body)) others,
      IsIdle line) :
    block (indent ++ "def f():\n".toList ++ text) = .ok body := by
  have hlines : (lines.map (rewrapLine deeper least)).map Prod.snd =
      (splitLines body).map (indentLine deeper) := by
    rw [h.splitLines_eq, List.map_map, List.map_map]
    rfl
  have hopen : openBehind none ((lines.map (rewrapLine deeper least)).map Prod.snd) =
      openBehind none (splitLines body) := by
    rw [hlines]
    exact openBehind_indentLine hdeeper (fun _ hq => by cases hq) fun line hline =>
      lineFeed_not_mem_of_mem_splitLines hline
  have hdeep : ∀ line ∈ lines.map (rewrapLine deeper least), line.1 = .code →
      indent.length < indentWidth line.2 := by
    rintro ⟨kind, line⟩ hline hcode
    exact Nat.lt_of_lt_of_le hlt (le_of_codeIndent? (h.codeIndent?_rewrapped hdeeper) hline hcode)
  -- The wrapped lines come first, and what is read behind them are idle lines.
  rw [block_of_signedBy (signedBy_def hindent text), if_neg (by decide), indentWidth_def hindent,
    htext, ← hlines, (h.classified.rewrapped h.forall_le hdeeper).blockLines_append hdeep, hopen,
    blockText_append_idle hidle, h.blockText_rewrapped hdeeper]

/-- A body is the body of every function that it is put into, and any text may stand behind it that
stops this function, if the body leaves no literal open. -/
theorem block_rewrap (h : block source = .ok body)
    (hindent : ∀ c ∈ indent, isIndent c = true) (hdeeper : ∀ c ∈ deeper, isIndent c = true)
    (hlt : indent.length < deeper.length) :
    block (rewrap indent deeper body) = .ok body ∧
    (openBehind none (splitLines body) = none →
      ∀ after, StopsBlock indent.length (splitLines after) →
        block (rewrap indent deeper body ++ '\n' :: after) = .ok body) := by
  obtain ⟨lines, least, hsliced⟩ := exists_sliced h
  have hlines : splitLines (joinLines ((splitLines body).map (indentLine deeper))) =
      (splitLines body).map (indentLine deeper) := by
    refine splitLines_joinLines (by simpa using splitLines_ne_nil body) ?_
    exact List.forall_mem_map.mpr fun line hline =>
      noLineFeed_indentLine hdeeper (lineFeed_not_mem_of_mem_splitLines hline)
  -- Once with nothing behind the block, and once with a text that ends it.
  refine ⟨hsliced.block_eq hindent hdeeper hlt (by rw [hlines, List.append_nil]) ?_, ?_⟩
  · exact List.forall_mem_nil _
  · intro hclosed after hstops
    rw [rewrap, List.append_assoc]
    refine hsliced.block_eq hindent hdeeper hlt (by rw [splitLines_append, hlines]) ?_
    rw [hclosed]
    exact isIdle_of_stopsBlock hstops

/-- A function with a comment at its start and literals over several lines, of which some are
indented less than the code. -/
def tabbed : String :=
  "\tdef g(a, b=')'): # two\n\n\t\t# head \r\n\t\tif a:\r\n\t\t\tb = '''\n # é\n\n\t ''' + " ++
  "\"\"\"\t \n\"\"\"  \n \t\n\t\trun(b)\n\n\t# tail\n"

/-- What it does. -/
def untabbed : String :=
  "# head \nif a:\n\tb = '''\n# é\n\n''' + \"\"\"\t \n\"\"\"  \n\nrun(b)"

theorem block_rewrap_tabbed :
    block tabbed.toList = .ok untabbed.toList ∧
    block (rewrap " ".toList "\t ".toList untabbed.toList) = .ok untabbed.toList ∧
    block (rewrap " ".toList "\t ".toList untabbed.toList ++ '\n' :: "\t# note\n\nrun()".toList) =
      .ok untabbed.toList := by
  have hblock : block tabbed.toList = .ok untabbed.toList := eq_ok_of_toOption (by decide +kernel)
  obtain ⟨halone, hfollowed⟩ := @block_rewrap tabbed.toList untabbed.toList " ".toList "\t ".toList
    hblock (by simp [isIndent]) (by simp [isIndent]) (by decide)
  exact ⟨hblock, halone, hfollowed (by decide +kernel) _ (by decide +kernel)⟩

end Cookbook.Body
