import Cookbook.Proofs.Artifact.Blocks
import Cookbook.Proofs.Checked.Structure
import Cookbook.Proofs.Except

/-!
# Checked bodies

The body of a recipe is cut out of the text behind the header. In a native artifact that takes an
offset for the parenthesis, the bracket that closes it, the colon and the end of the line of the
signature; the lines of the block lose as many bytes as the least indent has.

## Main results

* `afterSignature_eq`, `blockLines_eq`, `dedent_eq`: all cuts on the way to the block are sound.
* `body_eq`: so are those for the body of an artifact.
-/

namespace Cookbook.Checked

open Cookbook.Text Cookbook.Body

variable {source rest line text : List Char} {lines : List (List Char)} {indent width : Nat}
  {quote? : Option Char}

/-! ## The signature -/

/-- What follows the colon of the signature that starts a text. -/
def afterSignature (source : List Char) : Option (Except SignatureFault (List Char)) :=
  match indexOf? ['('] source with
  | none => some (.error .noParameters)
  | some openAt => do
    match ← closeFrom source openAt with
    | none => return .error .unclosed
    | some closeAt =>
      let (found, _) ← structure? (← cutFrom (closeAt + 1) source)
      match colonOf? 0 found with
      | none => return .error .noColon
      | some colon => return .ok (← cutFrom (closeAt + 1 + colon + 1) source)

theorem afterSignature_eq (source : List Char) :
    afterSignature source = some (Body.afterSignature source) := by
  unfold afterSignature Body.afterSignature
  cases hbreak : breakOn? ['('] source with
  | none => simp [indexOf?, hbreak]
  | some found =>
    obtain ⟨before, after⟩ := found
    have htext : source = before ++ '(' :: after := by
      rw [append_of_breakOn? hbreak, List.append_assoc, List.singleton_append]
    have hopen := closeFrom_eq before ('(' :: after)
    rw [← htext] at hopen
    -- The source is cut at its first parenthesis, and then behind the bracket that closes it.
    simp only [indexOf?, hbreak, Option.map_some, hopen, dropBytes_openAt hbreak,
      Option.bind_eq_bind, Option.bind_some]
    cases hclose : matchingClose? ('(' :: after) with
    | none => rfl
    | some length =>
      obtain ⟨group, c, result, hgroup, hc, rfl⟩ := exists_of_matchingClose? hclose
      have hsource : source = before ++ group ++ [c] ++ result := by
        rw [htext, hgroup]
        simp
      have hsize : byteSize before + byteSize group + 1 = byteSize (before ++ group ++ [c]) := by
        rw [byteSize_append, byteSize_append, (of_isClosing hc).2.2.2]
      have hcut : cutFrom (byteSize before + byteSize group + 1) source = some result := by
        rw [hsource, hsize, cutFrom_append]
      simp only [Option.map_some, hcut, dropBytes_closeAt hbreak hgroup hc, structure_eq,
        Option.bind_some]
      show (match colonOf? 0 (structural result) with
        | none => some (Except.error SignatureFault.noColon)
        | some colon => _) = _
      cases hcolon : colonOf? 0 (structural result) with
      | none => rfl
      | some colon =>
        obtain ⟨head, tail, rfl, hoffset⟩ := standsAt_of_mem_structural (mem_of_colonOf? hcolon)
        obtain rfl : colon = byteSize head := hoffset.trans (Nat.zero_add _)
        have hcut : cutFrom (byteSize before + byteSize group + 1 + byteSize head + 1) source =
            some tail := by
          have hcolonSize : byteSize before + byteSize group + 1 + byteSize head + 1 =
              byteSize (before ++ group ++ [c] ++ head ++ [':']) := by
            rw [byteSize_append, byteSize_append, ← hsize]
            rfl
          rw [hsource, hcolonSize, List.append_cons head ':' tail, ← List.append_assoc,
            ← List.append_assoc, cutFrom_append]
        simp only [hcut, dropBytes_colon]
        rfl

/-! ## The lines of a block -/

/-- The width of a line's indent. -/
def indentWidth (line : List Char) : Option Nat :=
  offsetOf line (line.dropWhile isIndent)

/-- The quote of the triple-quoted literal that is open after a line. -/
def openQuote? (quote? : Option Char) (line : List Char) : Option (Option Char) :=
  match quote? with
  | some quote =>
    match indexOf? [quote, quote, quote] line with
    | some position => do
      let (_, quote?) ← structure? (← cutFrom (position + 3) line)
      return quote?
    | none => some (some quote)
  | none => do
    let (_, quote?) ← structure? line
    return quote?

/-- The lines of a block with their kinds. -/
def blockLines (indent : Nat) (quote? : Option Char) :
    List (List Char) → Option (List (LineKind × List Char))
  | [] => some []
  | raw :: rest => do
    let line := dropReturns raw
    match kindOf quote?.isSome line with
    | .blank => return (.blank, line) :: (← blockLines indent quote? rest)
    | .comment => return (.comment, line) :: (← blockLines indent quote? rest)
    | .inLiteral =>
      return (.inLiteral, line) :: (← blockLines indent (← openQuote? quote? line) rest)
    | .code =>
      if (← indentWidth line) ≤ indent then return []
      else return (.code, line) :: (← blockLines indent (← openQuote? quote? line) rest)

theorem byteSize_of_isIndent (h : ∀ c ∈ text, isIndent c = true) : byteSize text = text.length := by
  induction text with
  | nil => rfl
  | cons c text ih =>
    rw [List.forall_mem_cons] at h
    have hsize : c.utf8Size = 1 := by
      have hc : c = ' ' ∨ c = '\t' := by simpa [isIndent] using h.1
      rcases hc with rfl | rfl <;> rfl
    rw [byteSize_cons, ih h.2, hsize, List.length_cons, Nat.add_comm]

theorem indentWidth_eq (line : List Char) : indentWidth line = some (Body.indentWidth line) := by
  have hoffset := offsetOf_append (line.takeWhile isIndent) (line.dropWhile isIndent)
  rw [List.takeWhile_append_dropWhile] at hoffset
  rw [indentWidth, hoffset, Body.indentWidth,
    byteSize_of_isIndent (List.all_eq_true.mp List.all_takeWhile)]

/-- A literal that is open ends with the next three quotes, and another one may be opened behind
them. -/
theorem openQuote?_eq (hquote : ∀ q ∈ quote?, isQuote q = true) (line : List Char) :
    openQuote? quote? line = some (Body.openQuote? quote? line) := by
  cases quote? with
  | none =>
    rw [openQuote?, structure_eq, Body.openQuote?_none]
    rfl
  | some quote =>
    have hquote := hquote quote rfl
    have hreport := congrArg Prod.snd (report_tripled hquote 0 line)
    rw [Body.openQuote?_some]
    simp only [openQuote?, indexOf?]
    cases hbreak : breakOn? [quote, quote, quote] line with
    | none =>
      rw [hbreak] at hreport
      exact congrArg some hreport.symm
    | some found =>
      obtain ⟨before, after⟩ := found
      have hcut : cutFrom (byteSize before + 3) line = some after := by
        have hcut := cutFrom_append (before ++ [quote, quote, quote]) after
        rwa [← append_of_breakOn? hbreak, byteSize_append, byteSize_tripled hquote] at hcut
      rw [hbreak] at hreport
      simp only [Option.map_some, hcut, structure_eq, Option.bind_eq_bind, Option.bind_some]
      refine congrArg some ?_
      -- The rest of the line is scanned from its own start, and so the offsets differ.
      show (scan .code 0 after).mode.tripled? = _
      rw [mode_scan wellQuoted_code 0 (0 + (byteSize before + 3))]
      exact hreport.symm

theorem blockLines_eq (hquote : ∀ q ∈ quote?, isQuote q = true) (lines : List (List Char)) :
    blockLines indent quote? lines = some (Body.blockLines indent quote? lines) := by
  induction lines generalizing quote? with
  | nil => rfl
  | cons raw rest ih =>
    have hafter := isQuote_openQuote? hquote (dropReturns raw)
    rw [blockLines, Body.blockLines]
    cases hkind : kindOf quote?.isSome (dropReturns raw) with
    | blank | comment =>
      simp only [ih hquote]
      rfl
    | inLiteral =>
      simp only [openQuote?_eq hquote, ih hafter, Option.bind_eq_bind, Option.bind_some]
      rfl
    | code =>
      simp only [indentWidth_eq, openQuote?_eq hquote, ih hafter, Option.bind_eq_bind,
        Option.bind_some]
      split <;> rfl

/-! ## Dedenting -/

/-- A line without the block's indent. -/
def dedent (indent : Nat) : LineKind × List Char → Option (List Char)
  | (.blank, _) => some []
  | (.code, line) => do return trimEnd (← cutFrom indent line)
  | (.comment, line) | (.inLiteral, line) => do cutFrom (min (← indentWidth line) indent) line

/-- The least indent of a line of code. -/
def codeIndent? (lines : List (LineKind × List Char)) : Option (Option Nat) := do
  let code := lines.filter fun (kind, _) => kind = .code
  return (← code.mapM fun (_, line) => indentWidth line).min?

/-- Within an indent every offset is a boundary, and it counts characters. -/
theorem cutFrom_indent (h : width ≤ Body.indentWidth line) :
    cutFrom width line = some (line.drop width) := by
  have hparts := List.take_append_drop width line
  have hwidth : byteSize (line.take width) = width := by
    rw [byteSize_of_isIndent (isIndent_of_mem_take h), List.length_take]
    exact Nat.min_eq_left (Nat.le_trans h (List.takeWhile_sublist isIndent).length_le)
  have hcut := cutFrom_append (line.take width) (line.drop width)
  rwa [hparts, hwidth] at hcut

theorem dedent_eq {kind : LineKind} (h : kind = .code → indent ≤ Body.indentWidth line) :
    dedent indent (kind, line) = some (Body.dedent indent (kind, line)) := by
  cases kind with
  | blank => rfl
  | code => simp [dedent, cutFrom_indent (h rfl), Body.dedent]
  | comment | inLiteral =>
    simp [dedent, indentWidth_eq, cutFrom_indent (Nat.min_le_left _ _), Body.dedent]

theorem mapM_eq_some_map {α β : Type} {f : α → Option β} {g : α → β} {xs : List α}
    (h : ∀ a ∈ xs, f a = some (g a)) : xs.mapM f = some (xs.map g) :=
  mapM_eq_some_iff.mpr (List.forall₂_map_right_iff.mpr (List.forall₂_same.mpr h))

theorem codeIndent?_eq (lines : List (LineKind × List Char)) :
    codeIndent? lines = some (Body.codeIndent? lines) := by
  have hmap : (lines.filter fun line => line.1 = .code).mapM (fun line => indentWidth line.2) =
      some ((lines.filter fun line => line.1 = .code).map fun line => Body.indentWidth line.2) :=
    mapM_eq_some_map fun line _ => indentWidth_eq line.2
  unfold codeIndent?
  dsimp only
  rw [hmap, codeIndent?_eq_min?]
  rfl

/-! ## The ends of a block -/

section Trimming

variable {α : Type} {p : α → Bool} {front tail : List α} {a : α}

/-- The index of the last item that passes a test. -/
def lastIdx? (p : α → Bool) : List α → Option Nat
  | [] => none
  | a :: rest =>
    match lastIdx? p rest with
    | some i => some (i + 1)
    | none => if p a then some 0 else none

/-- The items from an index on; the index may be the end, but not behind it. -/
def splitOff (n : Nat) (items : List α) : Option (List α) :=
  if n ≤ items.length then some (items.drop n) else none

theorem lastIdx?_append (ha : p a = true) (htail : ∀ b ∈ tail, p b = false) :
    lastIdx? p (front ++ a :: tail) = some front.length := by
  have hnone : lastIdx? p tail = none := by
    induction tail with
    | nil => rfl
    | cons b tail ih =>
      rw [List.forall_mem_cons] at htail
      rw [lastIdx?, ih htail.2, htail.1]
      rfl
  induction front with
  | nil => rw [List.nil_append, lastIdx?, hnone, ha]; rfl
  | cons b front ih => rw [List.cons_append, lastIdx?, ih]; rfl

theorem findIdx?_append (hfront : ∀ b ∈ front, p b = false) (ha : p a = true) :
    (front ++ a :: tail).findIdx? p = some front.length := by
  induction front with
  | nil => rw [List.nil_append, List.findIdx?_cons, ha]; rfl
  | cons b front ih =>
    rw [List.forall_mem_cons] at hfront
    rw [List.cons_append, List.findIdx?_cons, hfront.1, ih hfront.2]
    rfl

theorem splitOff_append (front back : List α) : splitOff front.length (front ++ back) = some back := by
  rw [splitOff, if_pos (by simp), List.drop_left]

end Trimming

/-- The lines from the first one that is not blank to the last one of code or literal. -/
def trimBlock (kinds : List LineKind) (lines : List (List Char)) : Option (List (List Char)) :=
  let last := (lastIdx? (fun kind => kind = .code ∨ kind = .inLiteral) kinds).getD 0
  let first := (kinds.findIdx? (· ≠ .blank)).getD 0
  splitOff first (lines.take (last + 1))

/-- The first line that is not blank and the last one that is not idle bound the block, and they
stand in this order. -/
theorem trimBlock_eq {lines : List (LineKind × List Char)} (f : LineKind × List Char → List Char)
    (hcode : ∃ line ∈ lines, line.1 = LineKind.code) :
    trimBlock (lines.map Prod.fst) (lines.map f) = some ((Body.trimBlock lines).map f) := by
  obtain ⟨blanks, init, last, idle, rfl, htrim, hblanks, hfirst, hlast, hidle⟩ :=
    exists_append_trimBlock hcode
  rw [htrim]
  -- Behind the last line stand idle lines only, and before the first one blank lines only, so that
  -- the two searches stop at these lines.
  have hlastIdx : lastIdx? (fun kind => decide (kind = .code ∨ kind = .inLiteral))
      ((blanks ++ (init ++ last :: idle)).map Prod.fst) = some (blanks ++ init).length := by
    rw [← List.append_assoc, List.map_append, List.map_cons, lastIdx?_append (by simp [hlast]),
      List.length_map]
    intro kind hkind
    obtain ⟨line, hline, rfl⟩ := List.mem_map.mp hkind
    rcases hidle line hline with hidle | hidle <;> simp [hidle]
  have hfirstIdx : ((blanks ++ (init ++ last :: idle)).map Prod.fst).findIdx?
      (fun kind => decide (kind ≠ .blank)) = some blanks.length := by
    obtain ⟨first, rest, hstarts⟩ : ∃ first rest, init ++ last :: idle = first :: rest :=
      List.exists_cons_of_ne_nil (by simp)
    have hhead : (init ++ [last]).head? = some first := by
      have hhead := congrArg List.head? hstarts
      cases init <;> simpa using hhead
    rw [hstarts, List.map_append, List.map_cons, findIdx?_append _ (by simp [hfirst _ hhead]),
      List.length_map]
    intro kind hkind
    obtain ⟨line, hline, rfl⟩ := List.mem_map.mp hkind
    simp [hblanks line hline]
  -- The slice up to the last line, from which the blank lines are split off.
  have htake : ((blanks ++ (init ++ last :: idle)).map f).take ((blanks ++ init).length + 1) =
      blanks.map f ++ (init ++ [last]).map f := by
    have hlines : blanks ++ (init ++ last :: idle) = blanks ++ (init ++ [last]) ++ idle := by simp
    have hlength : (blanks ++ init).length + 1 = ((blanks ++ (init ++ [last])).map f).length := by
      simp only [List.length_map, List.length_append, List.length_singleton, Nat.add_assoc]
    rw [hlines, List.map_append, hlength, List.take_left, List.map_append]
  rw [trimBlock, hlastIdx, hfirstIdx]
  simp only [Option.getD_some]
  rw [htake, ← List.length_map f, splitOff_append]

/-! ## The block -/

/-- What the lines of a block read without their indent. -/
def blockText (lines : List (LineKind × List Char)) : Option (Except Error (List Char)) := do
  match ← codeIndent? lines with
  | none => return .error .emptyBody
  | some indent =>
    let dedented ← lines.mapM (dedent indent)
    return .ok (joinLines (← trimBlock (lines.map Prod.fst) dedented))

/-- The rest of the first line, and what follows that line. -/
def cutLine (text : List Char) : Option (List Char × List Char) :=
  match indexOf? ['\n'] text with
  | some position => do return (← cutTo position text, ← cutFrom (position + 1) text)
  | none => some (text, [])

/-- The block of the function that starts a text. -/
def block (source : List Char) : Option (Except Error (List Char)) := do
  let indent ← indentWidth (firstLine source)
  match ← afterSignature source with
  | .error fault => return .error (.malformed 1 (.malformedSignature fault))
  | .ok rest =>
    let (sameLine, following) ← cutLine rest
    let suite := trim sameLine
    if !suite.isEmpty && suite.head? != some '#' then return .ok suite
    else blockText (← blockLines indent none (splitLines following))

/-- The body of an artifact. -/
def body (text : List Char) (header : Header) (dialect : Dialect) :
    Option (Except Error (List Char)) := do
  let rest ← cutFrom header.bodyStart text
  chain (if dialect = .native then block rest else some (.ok (trim rest))) fun body =>
    some (if body.isEmpty then .error .emptyBody else .ok body)

theorem blockText_eq (lines : List (LineKind × List Char)) :
    blockText lines = some (Body.blockText lines) := by
  rw [blockText, codeIndent?_eq, Body.blockText]
  cases hindent : Body.codeIndent? lines with
  | none => rfl
  | some indent =>
    have hdedent : lines.mapM (dedent indent) = some (lines.map (Body.dedent indent)) :=
      mapM_eq_some_map fun line hline => dedent_eq (le_of_codeIndent? hindent hline)
    have hcode := exists_code_of_codeIndent? (by simp [hindent] : Body.codeIndent? lines ≠ none)
    simp only [hdedent, trimBlock_eq _ hcode, Option.bind_eq_bind, Option.bind_some]
    rfl

/-- The line of a signature is cut off; without a line feed nothing follows it. -/
theorem cutLine_eq (text : List Char) : ∃ sameLine following,
    cutLine text = some (sameLine, following) ∧
      (splitLines text = sameLine :: splitLines following ∨
        splitLines text = [sameLine] ∧ following = []) := by
  unfold cutLine indexOf?
  cases hbreak : breakOn? ['\n'] text with
  | none => exact ⟨text, [], rfl, .inr ⟨splitLines_of_not_mem (not_mem_of_breakOn?_eq_none hbreak), rfl⟩⟩
  | some found =>
    obtain ⟨before, after⟩ := found
    obtain rfl := append_of_breakOn? hbreak
    -- The line feed that is found is the first one, so the line ends in front of it.
    have hline := splitLines_of_not_mem (not_mem_of_breakOn? hbreak)
    refine ⟨before, after, ?_, .inl ?_⟩
    · have hfollowing : cutFrom (byteSize before + 1) (before ++ ['\n'] ++ after) = some after := by
        have hcut := cutFrom_append (before ++ ['\n']) after
        rwa [byteSize_append] at hcut
      have hsameLine : cutTo (byteSize before) (before ++ ['\n'] ++ after) = some before := by
        rw [List.append_assoc, cutTo_append]
      simp only [Option.map_some, hsameLine, hfollowing, Option.bind_eq_bind, Option.bind_some]
      rfl
    · rw [List.append_assoc, List.singleton_append, splitLines_append, hline]
      rfl

theorem block_eq (source : List Char) : block source = some (Body.block source) := by
  rw [block, indentWidth_eq, afterSignature_eq]
  cases hsignature : Body.afterSignature source with
  | error fault =>
    simp [Body.block, hsignature]
  | ok rest =>
    obtain ⟨sameLine, following, hcut, hlines⟩ := cutLine_eq rest
    have hsuite : (!(trim sameLine).isEmpty && (trim sameLine).head? != some '#') = true ↔
        IsSuite sameLine := by
      simp [IsSuite]
    have hnone : ∀ q ∈ (none : Option Char), isQuote q = true := fun _ h => by cases h
    simp only [hcut, Option.bind_eq_bind, Option.bind_some, hsuite, blockLines_eq hnone,
      blockText_eq]
    rcases hlines with hlines | ⟨hlines, rfl⟩
    · rw [block_of_signedBy ⟨rest, hsignature, hlines⟩]
      split <;> rfl
    · -- Without a line feed there are no lines, and an empty one is as good as none.
      rw [block_of_signedBy ⟨rest, hsignature, hlines⟩]
      split <;> rfl

theorem body_eq {text : List Char} {header : Header} (h : IsBoundary text header.bodyStart)
    (dialect : Dialect) : body text header dialect = some (Body.find text header dialect) := by
  rw [body, cutFrom_eq h, Body.find]
  simp only [Option.bind_eq_bind, Option.bind_some]
  split
  · exact chain_eq (block_eq _) fun body _ => rfl
  · exact chain_eq rfl fun body _ => rfl

end Cookbook.Checked
