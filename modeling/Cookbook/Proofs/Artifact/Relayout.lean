import Cookbook.Proofs.Artifact.Rewrapping
import Cookbook.Proofs.Text.Margins

/-!
# Blocks in another layout

A function may be indented as a whole, and its lines may end in any number of carriage returns in
front of their line feeds: its block stays the same. The signature ends at the same colon, a line is
of the same kind, and what is dedented grows with the indent.

## Main definitions

* `indentLines`, `withReturns`: a text in another layout.
* `Shifted`: a line of a block and the same line with an indent in front.

## Main results

* `afterSignature_lay`: the signature ends at the same colon.
* `forall₂_blockLines`: the lines of the block are of the same kinds.
* `block_lay`, `block_relaid`: the block is the same.
-/

namespace Cookbook.Body

open Cookbook.Text

variable {m : Margins} {source text line laid before after front : List Char} {c : Char}
  {quote? : Option Char} {n least : Nat}

/-! ## The signature -/

/-- The colon outside brackets is the same among blanks. -/
theorem rel_colonOf? {R : Nat → Nat → Prop} {found others : List (Nat × Char)}
    (h : Aligned R found others) (depth : Int) :
    Option.Rel R (colonOf? depth found) (colonOf? depth others) := by
  -- The blanks of margins are no brackets and no colons. Apart from them the same characters are
  -- met, at offsets that are related.
  induction h generalizing depth with
  | nil => exact .none
  | blank hblank hline _ ih =>
    obtain ⟨hopening, hclosing, hcolon⟩ := of_isBlank hblank
    simpa [colonOf?.eq_def depth (_ :: _), hopening, hclosing, hcolon, hline] using ih depth
  | lineFeed _ ih =>
    rw [colonOf?.eq_def depth (_ :: _), colonOf?.eq_def depth (_ :: _)]
    by_cases hdepth : depth = 0
    · simp [isOpening, isClosing, hdepth]
    · simpa [isOpening, isClosing, hdepth] using ih depth
  | @same offset other c found others hoffset _ ih =>
    rw [colonOf?.eq_def depth (_ :: found), colonOf?.eq_def depth (_ :: others)]
    dsimp only
    by_cases hopening : isOpening c = true
    · rw [if_pos hopening, if_pos hopening]
      exact ih (depth + 1)
    · rw [if_neg hopening, if_neg hopening]
      by_cases hclosing : isClosing c = true
      · rw [if_pos hclosing, if_pos hclosing]
        exact ih (depth - 1)
      · rw [if_neg hclosing, if_neg hclosing]
        by_cases hcolon : c = ':' ∧ depth = 0
        · rw [if_pos hcolon, if_pos hcolon]
          exact .some hoffset
        · rw [if_neg hcolon, if_neg hcolon]
          by_cases hline : c = '\n' ∧ depth = 0
          · rw [if_pos hline, if_pos hline]
            exact .none
          · rw [if_neg hline, if_neg hline]
            exact ih depth

theorem dropBytes_zero (text : List Char) : dropBytes 0 text = text :=
  dropBytes_byteSize_append [] text

/-- A cut behind a character of one byte. -/
theorem dropBytes_succ (h : dropBytes n text = c :: after) (hc : c.utf8Size = 1) :
    dropBytes (n + 1) text = after := by
  induction text generalizing n with
  | nil => cases h
  | cons d text ih =>
    rw [dropBytes] at h ⊢
    by_cases hd : d.utf8Size ≤ n
    · rw [if_pos hd] at h
      rw [if_pos (by omega), Nat.sub_add_comm hd]
      exact ih h
    · rw [if_neg hd] at h
      obtain ⟨rfl, rfl⟩ := List.cons.inj h
      have hn : n + 1 - d.utf8Size = 0 := by omega
      rw [if_pos (by omega), hn, dropBytes_zero]

/-- Behind a character on a line, the same follows but for the margins. -/
theorem dropBytes_succ_of_matches {other : List Char} {k : Nat} (h : m.Matches text other n k)
    (hdrop : dropBytes n text = c :: after) (hc : c.utf8Size = 1) (hline : c ≠ '\n') :
    dropBytes (k + 1) other = m.lay false after := by
  refine dropBytes_succ ?_ hc
  rw [h, hdrop, Margins.lay_cons hline]

/-- What follows the colon behind the parameters. -/
def afterParameters (text : List Char) : Except SignatureFault (List Char) :=
  match colonOf? 0 (structural text) with
  | none => .error .noColon
  | some colon => .ok (dropBytes (colon + 1) text)

theorem afterSignature_of_break (h : breakOn? ['('] source = some (before, after)) :
    afterSignature source =
      match matchingClose? ('(' :: after) with
      | none => .error .unclosed
      | some length => afterParameters (dropBytes (length + 1) ('(' :: after)) := by
  have hsource : source = before ++ '(' :: after := by
    rw [append_of_breakOn? h, List.append_assoc, List.singleton_append]
  unfold afterSignature
  simp only [h, dropBytes_openAt h]
  cases hclose : matchingClose? ('(' :: after) with
  | none => rfl
  | some length =>
    have hcut : dropBytes (byteSize before + length + 1) source =
        dropBytes (length + 1) ('(' :: after) := by
      rw [hsource, Nat.add_assoc, dropBytes_add]
    simp only [hcut]
    rfl

theorem afterParameters_lay (m : Margins) (text : List Char) :
    afterParameters (m.lay false text) = (afterParameters text).map (m.lay false) := by
  have hcolon := rel_colonOf? (m.aligned_structural text) 0
  unfold afterParameters
  generalize hfound : colonOf? 0 (structural text) = found at hcolon ⊢
  generalize colonOf? 0 (structural (m.lay false text)) = laid at hcolon ⊢
  cases hcolon with
  | none => rfl
  | @some colon other hmatches =>
    obtain ⟨head, tail, rfl, hoffset⟩ := standsAt_of_mem_structural (mem_of_colonOf? hfound)
    obtain rfl : colon = byteSize head := hoffset.trans (Nat.zero_add _)
    have hdrop : dropBytes (byteSize head) (head ++ ':' :: tail) = ':' :: tail :=
      dropBytes_byteSize_append head _
    have hlaid := dropBytes_succ_of_matches hmatches hdrop rfl (by decide)
    have hcut := dropBytes_succ hdrop rfl
    simp only [hlaid, hcut]
    rfl

/-- With margins the signature ends at the same colon. -/
theorem afterSignature_lay (m : Margins) (b : Bool) (source : List Char) :
    afterSignature (m.lay b source) = (afterSignature source).map (m.lay false) := by
  cases hbreak : breakOn? ['('] source with
  | none =>
    have hnone := @Margins.breakOn?_lay_eq_none m source '(' b rfl hbreak
    simp only [afterSignature, hbreak, hnone]
    rfl
  | some parts =>
    obtain ⟨before, after⟩ := parts
    obtain ⟨laid, hlaid⟩ := @Margins.breakOn?_lay m source before after '(' b rfl hbreak
    have hclose := m.rel_matchingClose? ('(' :: after)
    rw [afterSignature_of_break hbreak, afterSignature_of_break hlaid,
      ← Margins.lay_cons (by decide)]
    -- The same bracket closes the parameters, at another offset.
    generalize hfound : matchingClose? ('(' :: after) = found at hclose ⊢
    generalize matchingClose? (m.lay false ('(' :: after)) = other at hclose ⊢
    cases hclose with
    | none => rfl
    | @some length other hmatches =>
      obtain ⟨group, c, result, hgroup, hc, rfl⟩ := exists_of_matchingClose? hfound
      have hdrop : dropBytes (byteSize group) ('(' :: after) = c :: result := by
        rw [hgroup, dropBytes_byteSize_append]
      have hsize : c.utf8Size = 1 ∧ c ≠ '\n' := by
        rcases eq_of_isClosing hc with rfl | rfl | rfl <;> decide
      have hbehind := dropBytes_succ_of_matches hmatches hdrop hsize.1 hsize.2
      have hcut := dropBytes_succ hdrop hsize.1
      simp only [hbehind, hcut]
      exact afterParameters_lay m result

/-! ## Lines -/

theorem isIndent_of_mem_front (h : c ∈ m.front) : isIndent c = true := by
  rcases m.front_indent c h with rfl | rfl <;> rfl

/-- A line of a text, and the same line of the text with margins. -/
def Framed (m : Margins) (line laid : List Char) : Prop :=
  ∃ returns, laid = indentLine m.front line ++ returns ∧ ∀ c ∈ returns, c = '\r'

/-- A word goes to the first line. -/
theorem splitLines_word_append {word first : List Char} {others : List (List Char)}
    (h : '\n' ∉ word) (hlines : splitLines text = first :: others) :
    splitLines (word ++ text) = (word ++ first) :: others := by
  induction word with
  | nil => exact hlines
  | cons c word ih =>
    rw [List.mem_cons, not_or] at h
    rw [List.cons_append, splitLines, if_neg (Ne.symm h.1), ih h.2]
    rfl

/-- With margins a text has the same lines in their frames; the first one has no indent in front if
the text does not start a line. -/
theorem splitLines_lay (m : Margins) (b : Bool) (text : List Char) :
    ∃ first others returns laids, splitLines text = first :: others ∧
      splitLines (m.lay b text) =
        ((if b then indentLine m.front first else first) ++ returns) :: laids ∧
      (∀ c ∈ returns, c = '\r') ∧ List.Forall₂ (Framed m) others laids := by
  -- A line feed ends a line, with carriage returns in front of it. Any other character belongs to
  -- the first line of what follows.
  induction text generalizing b with
  | nil => exact ⟨[], [], [], [], rfl, by cases b <;> rfl, List.forall_mem_nil _, .nil⟩
  | cons c text ih =>
    by_cases hc : c = '\n'
    · obtain ⟨first, others, returns, laids, hlines, hlaids, hreturns, hframed⟩ := ih true
      have hback : '\n' ∉ m.back := fun h => (Margins.isBlank_of_mem_back h).2 rfl
      refine ⟨[], first :: others, m.back, _ :: laids, ?_, ?_, m.back_returns,
        .cons ⟨returns, rfl, hreturns⟩ hframed⟩
      · rw [splitLines, if_pos hc, hlines]
      · rw [hc, Margins.lay_lineFeed, splitLines_append, splitLines_of_not_mem hback, hlaids]
        cases b <;> rfl
    · obtain ⟨first, others, returns, laids, hlines, hlaids, hreturns, hframed⟩ := ih false
      have hmargin : '\n' ∉ (if b then m.front else []) ++ [c] := by
        rw [List.mem_append, not_or]
        refine ⟨?_, by simpa using Ne.symm hc⟩
        split
        · exact fun h => (Margins.isBlank_of_mem_front h).2 rfl
        · exact List.not_mem_nil
      refine ⟨c :: first, others, returns, laids, ?_, ?_, hreturns, hframed⟩
      · rw [splitLines, if_neg hc, hlines]
      · rw [Margins.lay_of_ne hc, List.append_cons, splitLines_word_append hmargin hlaids]
        cases b <;> simp [indentLine]

theorem dropReturns_append {returns : List Char} (h : ∀ c ∈ returns, c = '\r') (line : List Char) :
    dropReturns (line ++ returns) = dropReturns line := by
  rw [dropReturns, dropEndWhile, List.reverse_append, List.dropWhile_append_of_pos]
  · rfl
  · exact fun c hc => beq_iff_eq.mpr (h c (List.mem_reverse.mp hc))

/-- A line and the same line with an indent in front. An empty line may have none. -/
def Indented (front line laid : List Char) : Prop :=
  laid = front ++ line ∨ line = [] ∧ laid = []

/-- Without carriage returns at its end, a line in its frame has the indent in front. -/
theorem Framed.indented (h : Framed m line laid) :
    Indented m.front (dropReturns line) (dropReturns laid) := by
  obtain ⟨returns, rfl, hreturns⟩ := h
  rw [dropReturns_append hreturns]
  cases line with
  | nil => exact .inr ⟨rfl, rfl⟩
  | cons c line =>
    have hfront : dropReturns m.front = m.front := dropReturns_eq_self fun c hc => by
      rcases m.front_indent c (List.mem_of_getLast? hc) with rfl | rfl <;> decide
    refine .inl ?_
    rw [indentLine, List.isEmpty_cons, if_neg Bool.false_ne_true]
    generalize c :: line = line
    unfold dropReturns dropEndWhile at hfront ⊢
    rw [List.reverse_append, List.dropWhile_append]
    split
    · next hempty => rw [List.isEmpty_iff.mp hempty, List.reverse_nil, List.append_nil, hfront]
    · rw [List.reverse_append, List.reverse_reverse]

theorem Indented.surrounds (h : Indented front line laid) (hfront : ∀ c ∈ front, isIndent c = true) :
    Surrounds laid line := by
  rcases h with rfl | ⟨rfl, rfl⟩
  · exact ⟨front, [], by simp, fun c hc => isBlank_of_isIndent (hfront c hc), List.forall_mem_nil _⟩
  · exact ⟨[], [], rfl, List.forall_mem_nil _, List.forall_mem_nil _⟩

theorem indentWidth_append (hfront : ∀ c ∈ front, isIndent c = true) (line : List Char) :
    indentWidth (front ++ line) = front.length + indentWidth line := by
  rw [indentWidth, List.takeWhile_append_of_pos hfront, List.length_append]
  rfl

theorem ne_nil_of_kindOf_code {inside : Bool} (h : kindOf inside line = .code) : line ≠ [] := by
  rintro rfl
  cases inside <;> cases h

/-! ## The lines of a block -/

/-- A line of a block, and the same line with an indent in front. -/
structure Shifted (front : List Char) (line laid : LineKind × List Char) : Prop where
  kind_eq : line.1 = laid.1
  indented : Indented front line.2 laid.2
  code : line.1 = .code → laid.2 = front ++ line.2

/-- With margins the lines of a block are of the same kinds, if the function is indented as well. -/
theorem forall₂_blockLines {lines laids : List (List Char)} (h : List.Forall₂ (Framed m) lines laids)
    (hquote : ∀ q ∈ quote?, isQuote q = true) (hlines : ∀ line ∈ lines, '\n' ∉ line)
    (hlaids : ∀ line ∈ laids, '\n' ∉ line) :
    List.Forall₂ (Shifted m.front) (blockLines n quote? lines)
      (blockLines (m.front.length + n) quote? laids) := by
  have hfront : ∀ c ∈ m.front, isIndent c = true := fun _ => isIndent_of_mem_front
  induction h generalizing quote? with
  | nil => exact .nil
  | @cons line laid lines laids hframed _ ih =>
    rw [List.forall_mem_cons] at hlines hlaids
    have hindented := hframed.indented
    have hkind : kindOf quote?.isSome (dropReturns laid) = kindOf quote?.isSome (dropReturns line) :=
      (hindented.surrounds hfront).kindOf_eq _
    have hbare := (hasKind_dropReturns hquote hlaids.1).noLineFeed
    have hopen : openQuote? quote? (dropReturns laid) = openQuote? quote? (dropReturns line) :=
      (hindented.surrounds hfront).openQuote?_eq hbare hquote
    -- Blank lines and comments leave the open quote as it was, other lines may open or close one.
    have hbelow := @ih quote? hquote hlines.2 hlaids.2
    have hbehind := ih (isQuote_openQuote? hquote (dropReturns line)) hlines.2 hlaids.2
    rw [blockLines, blockLines]
    simp only [hkind, hopen]
    cases hline : kindOf quote?.isSome (dropReturns line) with
    | blank => exact .cons ⟨rfl, hindented, fun h => by cases h⟩ hbelow
    | comment => exact .cons ⟨rfl, hindented, fun h => by cases h⟩ hbelow
    | inLiteral => exact .cons ⟨rfl, hindented, fun h => by cases h⟩ hbehind
    | code =>
      -- A line of code has the margin in front of it, and it ends the block in both texts or in
      -- neither.
      have hne := ne_nil_of_kindOf_code hline
      have hcode : dropReturns laid = m.front ++ dropReturns line :=
        hindented.resolve_right fun h => hne h.1
      simp only [hcode, indentWidth_append hfront, Nat.add_le_add_iff_left]
      split
      · exact .nil
      · exact .cons ⟨rfl, .inl rfl, fun _ => rfl⟩ hbehind

theorem forall₂_dropWhile {α β : Type} {R : α → β → Prop} {p : α → Bool} {q : β → Bool}
    {items : List α} {others : List β} (hpq : ∀ a b, R a b → p a = q b)
    (h : List.Forall₂ R items others) :
    List.Forall₂ R (items.dropWhile p) (others.dropWhile q) := by
  induction h with
  | nil => exact .nil
  | @cons a b items others hab hrest ih =>
    rw [List.dropWhile_cons, List.dropWhile_cons, hpq a b hab]
    split
    · exact ih
    · exact .cons hab hrest

variable {lines laids : List (LineKind × List Char)}

theorem forall₂_trimBlock (h : List.Forall₂ (Shifted front) lines laids) :
    List.Forall₂ (Shifted front) (trimBlock lines) (trimBlock laids) := by
  unfold trimBlock
  refine List.forall₂_reverse_iff.mpr (forall₂_dropWhile ?_ (List.forall₂_reverse_iff.mpr
    (forall₂_dropWhile ?_ h)))
  all_goals
    intro line laid hshifted
    simp only [hshifted.kind_eq]

/-- The least indent grows with the indent in front. -/
theorem codeIndent?_shifted (h : List.Forall₂ (Shifted front) lines laids)
    (hfront : ∀ c ∈ front, isIndent c = true) :
    codeIndent? laids = (codeIndent? lines).map (front.length + ·) := by
  -- The same lines are code, and each of them is further in.
  have hwidths : (laids.filter fun line => line.1 = .code).map (fun line => indentWidth line.2) =
      ((lines.filter fun line => line.1 = .code).map fun line => indentWidth line.2).map
        (front.length + ·) := by
    induction h with
    | nil => rfl
    | @cons line laid lines laids hshifted _ ih =>
      by_cases hcode : line.1 = .code
      · have hother := hshifted.kind_eq.symm.trans hcode
        simp [hcode, hother, hshifted.code hcode, indentWidth_append hfront, ← ih]
      · have hother : laid.1 ≠ .code := fun h => hcode (hshifted.kind_eq.trans h)
        simpa [hcode, hother] using ih
  rw [codeIndent?_eq_min?, codeIndent?_eq_min?, hwidths]
  generalize (lines.filter fun line => line.1 = .code).map (fun line => indentWidth line.2) = widths
  -- Adding a width keeps the order, and with it the least of all.
  cases hmin : widths.min? with
  | none =>
    rw [List.min?_eq_none_iff.mp hmin]
    rfl
  | some least =>
    obtain ⟨hmem, hle⟩ := List.min?_eq_some_iff.mp hmin
    refine List.min?_eq_some_iff.mpr ⟨List.mem_map_of_mem hmem, fun width hwidth => ?_⟩
    obtain ⟨other, hother, rfl⟩ := List.mem_map.mp hwidth
    exact Nat.add_le_add_left (hle other hother) _

/-- What is left of a line is the same, if the indent in front of it is dropped as well. -/
theorem Shifted.dedent_eq {line laid : LineKind × List Char} (h : Shifted front line laid)
    (hfront : ∀ c ∈ front, isIndent c = true) (least : Nat) :
    dedent (front.length + least) laid = dedent least line := by
  obtain ⟨kind, line⟩ := line
  obtain ⟨other, laid⟩ := laid
  obtain ⟨rfl, hindented, hcode⟩ := h
  -- A line that keeps its blanks loses at most its own indent, which is deeper by the new one,
  -- unless it is empty.
  have hpart : laid.drop (min (indentWidth laid) (front.length + least)) =
      line.drop (min (indentWidth line) least) := by
    rcases hindented with hlaid | ⟨hline, hlaid⟩
    · obtain rfl : laid = front ++ line := hlaid
      rw [indentWidth_append hfront, Nat.add_min_add_left, List.drop_length_add_append]
    · obtain rfl : line = [] := hline
      obtain rfl : laid = [] := hlaid
      rfl
  cases kind with
  | blank => rfl
  | comment | inLiteral => exact hpart
  | code =>
    obtain rfl : laid = front ++ line := hcode rfl
    rw [dedent, dedent, List.drop_length_add_append]

theorem blockText_shifted (h : List.Forall₂ (Shifted front) lines laids)
    (hfront : ∀ c ∈ front, isIndent c = true) : blockText laids = blockText lines := by
  unfold blockText
  rw [codeIndent?_shifted h hfront]
  cases codeIndent? lines with
  | none => rfl
  | some least =>
    have hparts : (trimBlock laids).map (dedent (front.length + least)) =
        (trimBlock lines).map (dedent least) := by
      have hshifted := forall₂_trimBlock h
      generalize trimBlock lines = lines at hshifted ⊢
      generalize trimBlock laids = laids at hshifted ⊢
      induction hshifted with
      | nil => rfl
      | cons hline _ ih => rw [List.map_cons, List.map_cons, hline.dedent_eq hfront, ih]
    simp only [Option.map_some, hparts]

/-! ## The indent of the function -/

/-- The end of the first line and what follows it. -/
theorem exists_firstLine_append (text : List Char) :
    ∃ rest, firstLine text ++ rest = text ∧ ∀ c ∈ rest.head?, isIndent c = false := by
  cases hlines : fullLines text with
  | nil =>
    obtain rfl := fullLines_eq_nil_iff.mp hlines
    exact ⟨[], rfl, fun c hc => by cases hc⟩
  | cons line lines =>
    have htext : line ++ lines.flatten = text := by
      rw [← flatten_fullLines text, hlines]
      rfl
    unfold firstLine
    simp only [hlines]
    split
    · next front hreverse =>
      have hline : line = front.reverse ++ ['\r', '\n'] := by
        simpa using congrArg List.reverse hreverse
      exact ⟨'\r' :: '\n' :: lines.flatten, by rw [← htext, hline]; simp, by simp [isIndent]⟩
    · next front _ hreverse =>
      have hline : line = front.reverse ++ ['\n'] := by
        simpa using congrArg List.reverse hreverse
      exact ⟨'\n' :: lines.flatten, by rw [← htext, hline]; simp, by simp [isIndent]⟩
    · next hnone =>
      cases lines with
      | nil => exact ⟨[], by rw [← htext]; rfl, fun c hc => by cases hc⟩
      | cons next lines =>
        -- A line with others behind it ends in a line feed.
        have hline := @isLine_of_fullLines text next [line] lines hlines
        obtain ⟨body, -, rfl⟩ := hline line List.mem_cons_self
        exact absurd List.reverse_concat (hnone _)

/-- The indent of the first line is that of the text. -/
theorem indentWidth_firstLine (text : List Char) : indentWidth (firstLine text) = indentWidth text := by
  obtain ⟨rest, htext, hrest⟩ := exists_firstLine_append text
  have hnil : rest.takeWhile isIndent = [] := by
    cases rest with
    | nil => rfl
    | cons c rest => simp [hrest c rfl]
  conv_rhs => rw [← htext, indentWidth, List.takeWhile_append, hnil, List.append_nil]
  split
  · next hall => rw [indentWidth, hall]
  · rfl

theorem indentWidth_lay (m : Margins) (text : List Char) :
    indentWidth (m.lay false text) = indentWidth text := by
  induction text with
  | nil => rfl
  | cons c text ih =>
    by_cases hc : c = '\n'
    · rw [hc, Margins.lay_lineFeed]
      cases hback : m.back with
      | nil => rfl
      | cons r returns =>
        have hreturn : r = '\r' := m.back_returns r (by simp [hback])
        simp [hreturn, indentWidth, isIndent]
    · rw [Margins.lay_cons hc]
      unfold indentWidth at ih ⊢
      rw [List.takeWhile_cons, List.takeWhile_cons]
      split
      · rw [List.length_cons, List.length_cons, ih]
      · rfl

theorem lay_eq_lay_false (h : m.front = []) (b : Bool) (text : List Char) :
    m.lay b text = m.lay false text := by
  cases text with
  | nil => rfl
  | cons c text => cases b <;> simp [Margins.lay, h]

/-- An indent in front of the lines of a function is one in front of the function, unless the first
line is empty. -/
theorem indentWidth_lay_true (h : m.front ≠ [] → source.head? ≠ some '\n') (hne : source ≠ []) :
    indentWidth (m.lay true source) = m.front.length + indentWidth source := by
  by_cases hfront : m.front = []
  · rw [lay_eq_lay_false hfront, indentWidth_lay, hfront, List.length_nil, Nat.zero_add]
  · cases source with
    | nil => exact absurd rfl hne
    | cons c source =>
      have hc : c ≠ '\n' := fun hc => h hfront (congrArg some hc)
      rw [Margins.lay_true_cons hc, indentWidth_append fun _ => isIndent_of_mem_front, indentWidth_lay]

/-! ## Blocks -/

/-- The block of a function stays the same with margins, if its first line is indented, too. -/
theorem block_lay (m : Margins) (h : m.front ≠ [] → source.head? ≠ some '\n') :
    block (m.lay true source) = block source := by
  have hfront : ∀ c ∈ m.front, isIndent c = true := fun _ => isIndent_of_mem_front
  have hlaid := afterSignature_lay m true source
  -- A signature ends with margins where it ends without them, if it ends at all.
  cases hrest : afterSignature source with
  | error fault =>
    rw [hrest] at hlaid
    unfold block
    rw [hrest, hlaid]
    rfl
  | ok rest =>
    rw [hrest] at hlaid
    obtain ⟨sameLine, following, returns, laids, hlines, hlaids, hreturns, hframed⟩ :=
      splitLines_lay m false rest
    have hbare : ∀ line ∈ sameLine :: following, '\n' ∉ line := fun line hline =>
      lineFeed_not_mem_of_mem_splitLines (hlines ▸ hline)
    have hbareLaid : ∀ line ∈ (sameLine ++ returns) :: laids, '\n' ∉ line := fun line hline =>
      lineFeed_not_mem_of_mem_splitLines (hlaids ▸ hline)
    rw [List.forall_mem_cons] at hbare hbareLaid
    have htrim : trim (sameLine ++ returns) = trim sameLine :=
      trim_append_blanks (fun c hc => by rw [hreturns c hc]; rfl) sameLine
    rw [if_neg Bool.false_ne_true] at hlaids
    -- The line of the function is indented by as much as all others, so the lines of its block are
    -- further in by the same width as before.
    have hwidth : indentWidth (firstLine (m.lay true source)) =
        m.front.length + indentWidth (firstLine source) := by
      rw [indentWidth_firstLine, indentWidth_firstLine]
      refine indentWidth_lay_true h ?_
      rintro rfl
      cases hrest
    have hsuite : IsSuite (sameLine ++ returns) ↔ IsSuite sameLine := by
      rw [IsSuite, IsSuite, htrim]
    rw [block_of_signedBy ⟨rest, hrest, hlines⟩, block_of_signedBy ⟨_, hlaid, hlaids⟩, hwidth,
      blockText_shifted (forall₂_blockLines hframed (fun _ hq => by cases hq) hbare.2 hbareLaid.2)
        hfront, htrim]
    simp only [hsuite]

/-! ## Layouts -/

/-- A text with an indent in front of every line that is not empty. -/
def indentLines (indent text : List Char) : List Char :=
  joinLines ((splitLines text).map (indentLine indent))

/-- A text with a carriage return in front of every line feed. -/
def withReturns (text : List Char) : List Char :=
  text.flatMap fun c => if c = '\n' then ['\r', '\n'] else [c]

theorem joinLines_word_append (word first : List Char) (others : List (List Char)) :
    joinLines ((word ++ first) :: others) = word ++ joinLines (first :: others) := by
  cases others with
  | nil => rfl
  | cons next others => exact List.append_assoc word first _

/-- An indent as margins. -/
def indented (indent : List Char) (h : ∀ c ∈ indent, isIndent c = true) : Margins where
  front := indent
  back := []
  front_indent c hc := by simpa [isIndent] using h c hc
  back_returns := List.forall_mem_nil _

/-- A carriage return as margins. -/
def returned : Margins where
  front := []
  back := ['\r']
  front_indent := List.forall_mem_nil _
  back_returns := by simp

theorem lay_eq_joinLines (hback : m.back = []) {first : List Char} {others : List (List Char)}
    (b : Bool) (h : splitLines text = first :: others) :
    m.lay b text = joinLines
      ((if b then indentLine m.front first else first) :: others.map (indentLine m.front)) := by
  -- Without carriage returns the margins are indents in front of lines, of which the first has one
  -- only if it starts there.
  induction text generalizing b first others with
  | nil =>
    cases h
    cases b <;> rfl
  | cons c text ih =>
    obtain ⟨next, below, hlines⟩ := List.exists_cons_of_ne_nil (splitLines_ne_nil text)
    rw [splitLines, hlines] at h
    by_cases hc : c = '\n'
    · rw [if_pos hc] at h
      cases h
      rw [hc, Margins.lay_lineFeed, hback, ih true hlines]
      cases b <;> rfl
    · rw [if_neg hc] at h
      cases h
      rw [Margins.lay_of_ne hc, ih false hlines, List.append_cons, if_neg Bool.false_ne_true,
        ← joinLines_word_append]
      cases b <;> simp [indentLine]

theorem lay_indented {indent : List Char} (h : ∀ c ∈ indent, isIndent c = true) (text : List Char) :
    (indented indent h).lay true text = indentLines indent text := by
  obtain ⟨first, others, hlines⟩ := List.exists_cons_of_ne_nil (splitLines_ne_nil text)
  rw [lay_eq_joinLines rfl true hlines, indentLines, hlines]
  rfl

theorem lay_returned (b : Bool) (text : List Char) : returned.lay b text = withReturns text := by
  induction text generalizing b with
  | nil => rfl
  | cons c text ih =>
    rw [Margins.lay, withReturns, List.flatMap_cons, ih, ih]
    by_cases hc : c = '\n'
    · simp [hc, returned, withReturns]
    · simp [hc, returned, withReturns]

/-- The block of a function, or what is wrong with it, does not depend on the layout: it is the same
with one more indent in front of all lines that are not empty, of which the first is to be one, and
with a carriage return in front of every line feed. -/
theorem block_relaid (source : List Char) :
    (∀ indent : List Char, (∀ c ∈ indent, isIndent c = true) → source.head? ≠ some '\n' →
      block (indentLines indent source) = block source) ∧
    block (withReturns source) = block source := by
  constructor
  · intro indent hindent hfirst
    rw [← lay_indented hindent]
    exact block_lay _ fun _ => hfirst
  · rw [← lay_returned true]
    exact block_lay _ fun hfront => absurd rfl hfront

/-- A signature over two lines, literals over several lines, of which one is empty and one ends in a
backslash, and a comment that is indented less than the code. -/
def loosely : String :=
  "def f(a,\n  b=')'):  # two\n\n  x = '''\n a\n\n   '''\n # low\n  y = 'b\\\n  c'\nend\n"

theorem block_relaid_loosely :
    block (indentLines "\t ".toList loosely.toList) =
      .ok "x = '''\na\n\n '''\n# low\ny = 'b\\\nc'".toList ∧
    block (withReturns loosely.toList) =
      .ok "x = '''\na\n\n '''\n# low\ny = 'b\\\nc'".toList := by
  have hblock : block loosely.toList = .ok "x = '''\na\n\n '''\n# low\ny = 'b\\\nc'".toList :=
    eq_ok_of_toOption (by decide +kernel)
  obtain ⟨hindented, hreturns⟩ := block_relaid loosely.toList
  refine ⟨?_, hreturns.trans hblock⟩
  exact (hindented "\t ".toList (List.all_eq_true.mp (by decide)) (by decide)).trans hblock

end Cookbook.Body
