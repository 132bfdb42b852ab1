import Cookbook.Proofs.Artifact.KeptLiterals

/-!
# Literals of a block

Lines are dedented and trimmed one by one, while triple-quoted literals go over several lines. Where
literals in simple quotes are closed on their lines, the lines keep their triple-quoted literals
exactly if no blanks are trimmed on a line that opens one.

## Main definitions

* `IsTidy`: trimming a line leaves the literal alone that it opens.
* `Cut`: what is dropped from a line.

## Main results

* `tripled?_after_joinLines`: a scan line by line finds the same literal open as one of the text.
* `HasKind.keptLines_cons`: the literals of a line and those of the lines behind it.
* `Classified.forall₂_kept_iff`: the literals of lines are kept exactly if the lines are tidy.
-/

namespace Cookbook.Body

open Cookbook.Text

variable {source text more other line raw body : List Char} {c q : Char} {mode : Mode}
  {kind : LineKind} {quote? : Option Char} {least n : Nat} {lines : List (LineKind × List Char)}
  {raws : List (List Char)}

/-! ## The state behind lines -/

theorem openQuote?_eq (quote? : Option Char) (line : List Char) :
    openQuote? quote? line = ((Mode.inside quote?).after line).tripled? := by
  cases quote? with
  | none => exact openQuote?_none line
  | some q => exact openQuote?_some q line

theorem inside_openQuote? (h : ((Mode.inside quote?).after line).Unquoted) :
    Mode.inside (openQuote? quote? line) = ((Mode.inside quote?).after line).nextLine := by
  rw [openQuote?_eq, Mode.nextLine_eq_inside h]

theorem ClosedOnLines.of_cons (hquote : ∀ q ∈ quote?, isQuote q = true)
    (h : ClosedOnLines (.inside quote?) (joinLines (raw :: raws))) :
    (((Mode.inside quote?).after raw).Unquoted ∨ raws = []) ∧
      ClosedOnLines (.inside (openQuote? quote? raw)) (joinLines raws) := by
  cases raws with
  | nil => exact ⟨.inr rfl, fun above below hnil => by simp [joinLines] at hnil⟩
  | cons next raws =>
    have hhere := ClosedOnLines.here h
    rw [inside_openQuote? hhere]
    exact ⟨.inl hhere, ClosedOnLines.below (wellQuoted_inside hquote) h⟩

/-- Line by line and at once, a scan finds the same literal open behind lines. -/
theorem tripled?_after_joinLines (hquote : ∀ q ∈ quote?, isQuote q = true)
    (h : ClosedOnLines (.inside quote?) (joinLines raws)) :
    ((Mode.inside quote?).after (joinLines raws)).tripled? = openBehind quote? raws := by
  induction raws generalizing quote? with
  | nil => cases quote? <;> rfl
  | cons raw raws ih =>
    obtain ⟨hhere, hbelow⟩ := ClosedOnLines.of_cons hquote h
    have hrest := ih (isQuote_openQuote? hquote raw) hbelow
    cases raws with
    | nil => exact (openQuote?_eq quote? raw).symm
    | cons next raws =>
      rw [inside_openQuote? (hhere.resolve_right (List.cons_ne_nil _ _))] at hrest
      calc ((Mode.inside quote?).after (raw ++ '\n' :: joinLines (next :: raws))).tripled?
          = (((Mode.inside quote?).after raw).nextLine.after (joinLines (next :: raws))).tripled? := by
            rw [after_line (wellQuoted_inside hquote)]
        _ = openBehind quote? (raw :: next :: raws) := hrest

/-- Lines behind which the scan is in the same state one by one leave it in the same state together. -/
theorem after_joinLines_congr {others : List (List Char)}
    (h : List.Forall₂ (fun raw other => ∀ mode : Mode, mode.WellQuoted →
      mode.after raw = mode.after other) raws others) :
    ∀ mode : Mode, mode.WellQuoted → mode.after (joinLines raws) = mode.after (joinLines others) := by
  induction h with
  | nil => exact fun _ _ => rfl
  | @cons raw other raws others hraw hraws ih =>
    cases hraws with
    | nil => exact hraw
    | @cons next nextOther raws others hnext hraws =>
      intro mode hmode
      calc mode.after (raw ++ '\n' :: joinLines (next :: raws))
          = (mode.after raw).nextLine.after (joinLines (next :: raws)) := after_line hmode _ _
        _ = (mode.after other).nextLine.after (joinLines (nextOther :: others)) := by
            rw [hraw mode hmode, ih _ (wellQuoted_nextLine (wellQuoted_after hmode other))]
        _ = mode.after (other ++ '\n' :: joinLines (nextOther :: others)) :=
            (after_line hmode _ _).symm

/-! ## Idle lines -/

/-- Outside literals, a blank line or a comment. -/
def IdleLine (line : List Char) : Prop :=
  kindOf false line = .blank ∨ kindOf false line = .comment

/-- Behind an idle line the scan is outside literals, and none has begun. -/
theorem exists_idle_mode (hkind : IdleLine line) (hline : '\n' ∉ line) :
    ∃ mode, (mode = .code ∨ mode = .comment) ∧ Mode.code.after line = mode ∧
      ∀ text, extents .code (line ++ text) = extents mode text := by
  rcases hkind with hkind | hkind
  -- Blanks change nothing. A number sign opens a comment that lasts beyond the line.
  · have hblank := forall_isBlank_of_kindOf hkind
    refine ⟨.code, .inl rfl, ?_, ?_⟩
    · exact mode_scan_blanks wellQuoted_code hblank hline 0
    · exact extents_blanks wellQuoted_code untripled_code hblank hline
  · obtain ⟨rest, hsurrounds⟩ := exists_of_kindOf_comment hkind
    have hrest := hsurrounds.not_mem hline
    rw [List.mem_cons, not_or] at hrest
    obtain ⟨front, back, rfl, hfront, hback⟩ := hsurrounds
    refine ⟨.comment, .inr rfl, ?_, fun text => ?_⟩
    · rw [after_blanks_around wellQuoted_code hfront hback hline]
      calc (scan .code 0 ('#' :: rest)).mode
          = (scan .comment (0 + byteSize ['#']) rest).mode := congrArg Scan.mode (scan_hash 0 rest)
        _ = .comment := mode_scan_comment hrest.2 _
    · rw [List.mem_append, List.mem_append, not_or, not_or] at hline
      calc extents .code (front ++ ('#' :: rest ++ back) ++ text)
          = extents .code ('#' :: (rest ++ (back ++ text))) := by
            rw [List.append_assoc, extents_blanks wellQuoted_code untripled_code hfront hline.1]
            simp
        _ = extents .comment (rest ++ (back ++ text)) := extents_other rfl _
        _ = extents .comment text := by
            rw [extents_comment hrest.2, extents_comment hline.2.2]

theorem extents_idle_lines {idle : List (List Char)}
    (hidle : ∀ line ∈ idle, IdleLine line) (hlines : ∀ line ∈ idle, '\n' ∉ line)
    (raws : List (List Char)) :
    extents .code (joinLines (idle ++ raws)) = extents .code (joinLines raws) := by
  induction idle with
  | nil => rfl
  | cons line idle ih =>
    rw [List.forall_mem_cons] at hidle hlines
    obtain ⟨mode, hmode, -, hextents⟩ := exists_idle_mode hidle.1 hlines.1
    rw [← ih hidle.2 hlines.2]
    -- A line feed behind an idle line ends its comment, if it has one.
    cases hbelow : idle ++ raws with
    | nil =>
      have hnone := hextents []
      rw [List.append_nil] at hnone
      rw [List.cons_append, hbelow]
      exact hnone.trans (by rcases hmode with rfl | rfl <;> rfl)
    | cons next below =>
      rw [List.cons_append, hbelow]
      refine (hextents _).trans ?_
      rcases hmode with rfl | rfl
      · exact extents_other rfl _
      · rfl

/-! ## Lines of code and of literals -/

/-- Code that leaves a literal open has no blanks at its end, which are trimmed. -/
def IsTidy (line : LineKind × List Char) : Prop :=
  line.1 = .code → openQuote? none line.2 ≠ none → ∀ c ∈ line.2.getLast?, isBlank c = false

theorem isTidy_iff {line : LineKind × List Char} : IsTidy line ↔
    (line.1 = .code → openQuote? none line.2 ≠ none → line.2.getLast?.all (!isBlank ·) = true) := by
  rw [IsTidy]
  cases line.2.getLast? <;> simp

instance (line : LineKind × List Char) : Decidable (IsTidy line) :=
  decidable_of_iff _ isTidy_iff.symm

/-- A line is the indent that is dropped, what a block keeps of it, and a tail that is trimmed. -/
structure Cut (kind : LineKind) (least : Nat) (raw indent tail : List Char) : Prop where
  eq_append : raw = indent ++ (dedent least (kind, dropReturns raw) ++ tail)
  isIndent_indent : ∀ c ∈ indent, isIndent c = true
  isBlank_tail : ∀ c ∈ tail, isBlank c = true
  inLiteral : kind = .inLiteral → dropReturns tail = []
  code : kind = .code →
    (dropReturns tail = [] ↔ ∀ c ∈ (dropReturns raw).getLast?, isBlank c = false)

theorem dropReturns_eq_nil_iff : dropReturns line = [] ↔ ∀ c ∈ line, c = '\r' := by
  simp [dropReturns, dropEndWhile]

theorem exists_dropReturns_append (raw : List Char) :
    ∃ returns, dropReturns raw ++ returns = raw ∧ ∀ c ∈ returns, c = '\r' :=
  ⟨_, dropEndWhile_append (· == '\r') raw, fun _ hc => by
    simpa using List.mem_takeWhile_imp (List.mem_reverse.mp hc)⟩

theorem kindOf_of_forall_isBlank (h : ∀ c ∈ line, isBlank c = true) : kindOf false line = .blank := by
  rw [kindOf, if_neg Bool.false_ne_true, trimStart, List.dropWhile_eq_nil_iff.mpr h]

/-- A line that is not blank ends in a blank exactly if blanks stand behind the text on it. -/
theorem not_isBlank_getLast?_iff {front back : List Char} (hkind : kindOf false line ≠ .blank)
    (hline : line = front ++ (text ++ back)) (hfront : ∀ c ∈ front, isBlank c = true)
    (hback : ∀ c ∈ back, isBlank c = true) (htext : ∀ c ∈ text.getLast?, isBlank c = false) :
    (∀ c ∈ line.getLast?, isBlank c = false) ↔ back = [] := by
  constructor
  · intro h
    rcases List.eq_nil_or_concat back with hnil | ⟨init, c, rfl⟩
    · exact hnil
    · have hc := h c (by rw [hline]; simp)
      rw [hback c (by simp)] at hc
      cases hc
  · rintro rfl
    rcases List.eq_nil_or_concat text with rfl | ⟨init, c, rfl⟩
    · exact absurd (kindOf_of_forall_isBlank (by simpa [hline] using hfront)) hkind
    · simpa [hline] using htext

/-- Only lines in literals have one open in front of them. -/
theorem HasKind.outside (h : HasKind quote? kind line) (hkind : kind ≠ .inLiteral) :
    quote? = none ∧ kindOf false line = kind := by
  cases quote? with
  | none => exact ⟨rfl, h.kind_eq⟩
  | some q => exact absurd h.kind_eq.symm hkind

theorem HasKind.exists_cut (h : HasKind quote? kind (dropReturns raw))
    (hleast : kind = .code → least ≤ indentWidth (dropReturns raw)) :
    ∃ indent tail, Cut kind least raw indent tail := by
  obtain ⟨returns, hraw, hreturns⟩ := exists_dropReturns_append raw
  have hblank : ∀ c ∈ returns, isBlank c = true := fun c hc => by rw [hreturns c hc]; rfl
  have hnone := dropReturns_eq_nil_iff.mpr hreturns
  generalize hline : dropReturns raw = line at *
  -- Of a blank line nothing is kept. Of a comment and of a line in a literal all behind the indent
  -- is kept but carriage returns, and of code not even blanks at its end.
  cases kind with
  | blank =>
    refine ⟨[], raw, rfl, List.forall_mem_nil _, ?_, (fun hkind => by cases hkind),
      fun hkind => by cases hkind⟩
    rw [← hraw]
    exact List.forall_mem_append.mpr ⟨forall_isBlank_of_kindOf h.kind_eq, hblank⟩
  | comment | inLiteral =>
    refine ⟨line.take (min (indentWidth line) least), returns, ?_,
      isIndent_of_mem_take (Nat.min_le_left _ _), hblank, fun _ => hnone, fun hkind => by cases hkind⟩
    rw [hline, dedent, ← List.append_assoc, List.take_append_drop, hraw]
  | code =>
    -- The line is its indent, what is kept, and blanks; carriage returns stand behind these.
    obtain ⟨back, hback, hbacks⟩ := exists_trimEnd_append (line.drop least)
    have hparts : line = line.take least ++ (trimEnd (line.drop least) ++ back) := by
      rw [hback, List.take_append_drop]
    have hindent := isIndent_of_mem_take (hleast rfl)
    refine ⟨line.take least, back ++ returns, ?_, hindent,
      List.forall_mem_append.mpr ⟨hbacks, hblank⟩, (fun hkind => by cases hkind), fun _ => ?_⟩
    · rw [hline, dedent, ← List.append_assoc (trimEnd _), hback, ← List.append_assoc,
        List.take_append_drop, hraw]
    · have hkind : kindOf false line ≠ .blank := by
        rw [(h.outside (by decide)).2]
        decide
      rw [hline, not_isBlank_getLast?_iff hkind hparts
        (fun c hc => isBlank_of_isIndent (hindent c hc)) hbacks eq_false_of_mem_getLast?]
      constructor
      -- A line without its carriage returns ends with none, so the blanks in front of them are no
      -- carriage returns either.
      · intro hnil
        have hall := dropReturns_eq_nil_iff.mp hnil
        rcases List.eq_nil_or_concat back with hback | ⟨front, c, rfl⟩
        · exact hback
        · exact absurd (hall c (by simp)) (h.noReturn c (by rw [hparts]; simp))
      · rintro rfl
        exact hnone

/-- The literals of lines are kept, but for the first line of one that is open in front. -/
def KeptLines (quote? : Option Char) (u v : List Char) : Prop :=
  KeptBehind (extents (.inside quote?) u) (extents (.inside quote?) v)

/-- The first line of a literal that is open in front of lines may lose indent. -/
def KeptFirst (quote? : Option Char) (u v : List Char) : Prop :=
  quote? ≠ none → KeptLine (topLine (extents (.inside quote?) u).inner)
    (topLine (extents (.inside quote?) v).inner)

variable {u v tail : List Char}

/-- The end of a line on which a literal is open. -/
theorem extents_lineEnd (hquote : isQuote q = true) (htail : ∀ c ∈ tail, isBlank c = true)
    (text : List Char) : extents (.tripled q) (tail ++ '\n' :: text) =
      ⟨tail ++ '\n' :: (extents (.tripled q) text).inner, (extents (.tripled q) text).begun⟩ := by
  have hblank : ∀ c ∈ tail ++ ['\n'], isBlank c = true :=
    List.forall_mem_append.mpr ⟨htail, by simp; rfl⟩
  have hends := extents_tripled_blanks hquote hblank text
  simpa using hends

theorem extents_tripled_lineFeed (hquote : isQuote q = true) (text : List Char) :
    extents (.tripled q) ('\n' :: text) =
      ⟨'\n' :: (extents (.tripled q) text).inner, (extents (.tripled q) text).begun⟩ :=
  @extents_lineEnd q [] hquote (List.forall_mem_nil _) text

/-- Blanks that are trimmed at the end of a line belong to a literal that is open there. -/
theorem sameTop_lineEnd_iff (hmode : mode.WellQuoted) (htail : ∀ c ∈ tail, isBlank c = true)
    (hline : '\n' ∉ tail) : mode.Untripled ∨ SameTop (extents mode (tail ++ '\n' :: u)).inner
      (extents mode ('\n' :: v)).inner ↔ mode.Untripled ∨ dropReturns tail = [] := by
  refine or_congr_right' fun htripled => ?_
  cases mode with
  | code => exact absurd untripled_code htripled
  | comment => exact absurd untripled_comment htripled
  | quoted q => exact absurd (untripled_quoted q) htripled
  | tripled q =>
    rw [extents_lineEnd (hmode q rfl) htail, extents_tripled_lineFeed (hmode q rfl), SameTop,
      topLine_append_lineFeed hline, topLine_lineFeed]
    rfl

theorem keptBehind_lineEnd_iff (hmode : mode.WellQuoted) (htail : ∀ c ∈ tail, isBlank c = true)
    (hline : '\n' ∉ tail) (hquoted : mode.Unquoted ∨ u = [] ∧ v = [])
    (hfirst : KeptFirst mode.tripled? u v) :
    KeptBehind (extents mode (tail ++ '\n' :: u)) (extents mode ('\n' :: v)) ↔
      KeptLines mode.tripled? u v := by
  -- If no triple-quoted literal is open, the next line starts outside of one in both texts. If one
  -- is open, the tail and the line feed belong to it, and with them its first line on the other
  -- side.
  by_cases hclosed : mode.Untripled
  · have hnext : ∀ text, mode.Unquoted ∨ text = [] →
        extents mode ('\n' :: text) = extents (.inside mode.tripled?) text := by
      intro text htext
      rw [extents_lineFeed hmode hclosed]
      rcases htext with htext | rfl
      · rw [Mode.nextLine_eq_inside htext]
      · simp [extents]
    rw [extents_blanks hmode hclosed htail hline, hnext u (hquoted.imp_right And.left),
      hnext v (hquoted.imp_right And.right), KeptLines]
  · cases mode with
    | code => exact absurd untripled_code hclosed
    | comment => exact absurd untripled_comment hclosed
    | quoted q => exact absurd (untripled_quoted q) hclosed
    | tripled q =>
      have hquote := hmode q rfl
      have hkept : KeptLine (topLine (extents (.tripled q) u).inner)
          (topLine (extents (.tripled q) v).inner) := hfirst (Option.some_ne_none q)
      rw [extents_lineEnd hquote htail, extents_tripled_lineFeed hquote]
      constructor
      · rintro ⟨hbelow, hbegun⟩
        exact ⟨(keptBelow_lineFeed_iff.mp ((keptBelow_append_left hline).mp hbelow)).2, hbegun⟩
      · rintro ⟨hbelow, hbegun⟩
        exact ⟨(keptBelow_append_left hline).mpr (keptBelow_lineFeed_iff.mpr ⟨hkept, hbelow⟩), hbegun⟩

/-- The literals of two texts with the same line, but for blanks at its end, and with other lines
behind it. -/
theorem keptFrom_line_iff (hmode : mode.WellQuoted) (htext : '\n' ∉ text)
    (htail : ∀ c ∈ tail, isBlank c = true) (hline : '\n' ∉ tail)
    (hquoted : (mode.after text).Unquoted ∨ u = [] ∧ v = [])
    (hfirst : KeptFirst (mode.after text).tripled? u v) :
    KeptFrom mode (extents mode (text ++ (tail ++ '\n' :: u))) (extents mode (text ++ '\n' :: v)) ↔
      ((mode.after text).Untripled ∨ dropReturns tail = []) ∧
        KeptLines (mode.after text).tripled? u v := by
  have hafter := wellQuoted_after hmode text
  rw [keptFrom_append_iff hmode (calm_blanks_append htail (calm_of_isBlank rfl u))
    (calm_of_isBlank rfl v) htext, ← sameTop_lineEnd_iff hafter htail hline,
    ← keptBehind_lineEnd_iff hafter htail hline hquoted hfirst]
  exact ⟨fun h => ⟨h.top, h.behind⟩, fun h => ⟨h.1, h.2⟩⟩

theorem sameTop_line (hmode : mode.WellQuoted) (htext : '\n' ∉ text)
    (htail : ∀ c ∈ tail, isBlank c = true) (hline : '\n' ∉ tail) (hnone : dropReturns tail = []) :
    SameTop (extents mode (text ++ (tail ++ '\n' :: u))).inner
      (extents mode (text ++ '\n' :: v)).inner :=
  sameTop_append hmode (calm_blanks_append htail (calm_of_isBlank rfl u)) (calm_of_isBlank rfl v) htext
    ((sameTop_lineEnd_iff (wellQuoted_after hmode text) htail hline).mpr (.inr hnone))

theorem Cut.after_eq {indent : List Char} (hcut : Cut kind least raw indent tail) (hraw : '\n' ∉ raw)
    (hmode : mode.WellQuoted) :
    mode.after raw = mode.after (dedent least (kind, dropReturns raw)) := by
  have hindent : ∀ c ∈ indent, isBlank c = true := fun c hc =>
    isBlank_of_isIndent (hcut.isIndent_indent c hc)
  have hlines := hcut.eq_append ▸ hraw
  conv_lhs => rw [hcut.eq_append]
  exact after_blanks_around hmode hindent hcut.isBlank_tail hlines

/-- A line that leaves a literal open is tidy if nothing but carriage returns is trimmed at its end. -/
theorem Cut.isTidy_iff {indent : List Char} (h : HasKind none kind (dropReturns raw))
    (hcut : Cut kind least raw indent tail) : IsTidy (kind, dropReturns raw) ↔
      openQuote? none (dropReturns raw) = none ∨ dropReturns tail = [] := by
  cases kind with
  | blank => simp [IsTidy, h.openQuote?_of_idle (.inl rfl)]
  | comment => simp [IsTidy, h.openQuote?_of_idle (.inr rfl)]
  | inLiteral =>
    have hkind := kindOf_false (dropReturns raw)
    rw [show kindOf false (dropReturns raw) = .inLiteral from h.kind_eq] at hkind
    simp at hkind
  | code =>
    rw [hcut.code rfl, or_iff_not_imp_left]
    exact ⟨fun htidy => htidy rfl, fun htidy _ => htidy⟩

/-- Literals are kept on a line and behind it, if the line is tidy and they are kept behind it. -/
theorem HasKind.keptLines_cons (h : HasKind quote? kind (dropReturns raw)) (hraw : '\n' ∉ raw)
    (hleast : kind = .code → least ≤ indentWidth (dropReturns raw))
    (hquoted : ((Mode.inside quote?).after raw).Unquoted ∨ u = [] ∧ v = [])
    (hfirst : KeptFirst (openQuote? quote? (dropReturns raw)) u v) :
    KeptFirst quote? (raw ++ '\n' :: u) (dedent least (kind, dropReturns raw) ++ '\n' :: v) ∧
      (KeptLines quote? (raw ++ '\n' :: u) (dedent least (kind, dropReturns raw) ++ '\n' :: v) ↔
        IsTidy (kind, dropReturns raw) ∧ KeptLines (openQuote? quote? (dropReturns raw)) u v) := by
  obtain ⟨indent, tail, hcut⟩ := h.exists_cut hleast
  have hmode := wellQuoted_inside h.isQuote
  have hnext := (openQuote?_eq quote? _).symm.trans (h.openQuote?_dedent hleast)
  have htext : raw ++ '\n' :: u =
      indent ++ (dedent least (kind, dropReturns raw) ++ (tail ++ '\n' :: u)) := by
    conv_lhs => rw [hcut.eq_append]
    simp
  have hparts := hcut.eq_append ▸ hraw
  rw [List.mem_append, List.mem_append, not_or, not_or] at hparts
  rw [hcut.after_eq hraw hmode] at hquoted
  rw [← hnext] at hfirst
  have hfrom := keptFrom_line_iff hmode hparts.2.1 hcut.isBlank_tail hparts.2.2 hquoted hfirst
  rw [hnext, Mode.untripled_iff, hnext] at hfrom
  have hindent : ∀ c ∈ indent, isBlank c = true := fun c hc =>
    isBlank_of_isIndent (hcut.isIndent_indent c hc)
  rw [htext]
  cases quote? with
  | none =>
    refine ⟨fun hnone => absurd rfl hnone, ?_⟩
    rw [hcut.isTidy_iff h, ← hfrom]
    unfold KeptLines
    rw [Mode.inside, extents_blanks wellQuoted_code untripled_code hindent hparts.1,
      keptFrom_iff untripled_code]
  | some q =>
    -- The line is in a literal, so that nothing but carriage returns is trimmed.
    obtain rfl : LineKind.inLiteral = kind := h.kind_eq
    have hnone := hcut.inLiteral rfl
    have htop := @sameTop_line _ _ u v _ hmode hparts.2.1 hcut.isBlank_tail hparts.2.2 hnone
    have htidy : IsTidy (.inLiteral, dropReturns raw) := fun hkind => by cases hkind
    have hblanks := extents_tripled_blanks (h.isQuote q rfl) hindent
      (dedent least (.inLiteral, dropReturns raw) ++ (tail ++ '\n' :: u))
    constructor
    · intro _
      rw [Mode.inside, hblanks]
      exact htop.keptLine hcut.isIndent_indent
    · rw [iff_true_intro htidy, true_and, KeptLines, Mode.inside, hblanks]
      constructor
      · rintro ⟨hbelow, hbegun⟩
        exact (hfrom.mp ⟨.inr htop, (keptBelow_append_left hparts.1).mp hbelow, hbegun⟩).2
      · intro hkept
        obtain ⟨-, hbelow, hbegun⟩ := hfrom.mpr ⟨.inr hnone, hkept⟩
        exact ⟨(keptBelow_append_left hparts.1).mpr hbelow, hbegun⟩

/-! ## Lines one behind the other -/

/-- Lines with a line feed behind each of them. -/
def feedLines : List (List Char) → List Char
  | [] => []
  | line :: lines => line ++ '\n' :: feedLines lines

theorem feedLines_eq (hne : raws ≠ []) : feedLines raws = joinLines raws ++ ['\n'] := by
  induction raws with
  | nil => exact absurd rfl hne
  | cons raw raws ih =>
    cases raws with
    | nil => rfl
    | cons next raws =>
      rw [feedLines, ih (List.cons_ne_nil _ _)]
      simp [joinLines]

theorem surrounds_dropReturns (raw : List Char) : Surrounds raw (dropReturns raw) := by
  obtain ⟨returns, hraw, hreturns⟩ := exists_dropReturns_append raw
  exact ⟨[], returns, hraw.symm, List.forall_mem_nil _, fun c hc => by rw [hreturns c hc]; rfl⟩

/-- The literals of lines are kept exactly if the lines are tidy. -/
theorem Classified.keptLines_iff (h : Classified quote? lines)
    (hlines : lines.map Prod.snd = raws.map dropReturns) (hraws : ∀ raw ∈ raws, '\n' ∉ raw)
    (hleast : ∀ line ∈ lines, line.1 = .code → least ≤ indentWidth line.2)
    (hclosed : ClosedOnLines (.inside quote?) (joinLines raws)) :
    KeptFirst quote? (feedLines raws) (feedLines (lines.map (dedent least))) ∧
      (KeptLines quote? (feedLines raws) (feedLines (lines.map (dedent least))) ↔
        ∀ line ∈ lines, IsTidy line) := by
  -- From the last line up: what is below is kept exactly if it is tidy, so the line on top of it
  -- adds the condition that it is tidy itself.
  induction h generalizing raws with
  | nil =>
    obtain rfl : raws = [] := List.map_eq_nil_iff.mp hlines.symm
    exact ⟨fun _ => .refl _, fun _ => List.forall_mem_nil _, fun _ => .refl _⟩
  | @cons quote? kind line lines hline _ ih =>
    cases raws with
    | nil => cases hlines
    | cons raw raws =>
      obtain ⟨hraw, hrest⟩ := List.cons.inj hlines
      obtain rfl : line = dropReturns raw := hraw
      rw [List.forall_mem_cons] at hraws hleast
      obtain ⟨hhere, hbelow⟩ := ClosedOnLines.of_cons hline.isQuote hclosed
      rw [(surrounds_dropReturns raw).openQuote?_eq hraws.1 hline.isQuote] at hbelow
      obtain ⟨hfirst, hkept⟩ := ih hrest hraws.2 hleast.2 hbelow
      -- A simple literal is open at the end of the last line at most.
      have hquoted : ((Mode.inside quote?).after raw).Unquoted ∨
          feedLines raws = [] ∧ feedLines (lines.map (dedent least)) = [] := by
        refine hhere.imp_right fun hnil => ?_
        obtain rfl : lines = [] := List.map_eq_nil_iff.mp (by rw [hrest, hnil]; rfl)
        exact ⟨by rw [hnil]; rfl, rfl⟩
      rw [List.forall_mem_cons, ← hkept]
      exact hline.keptLines_cons hraws.1 hleast.1 hquoted hfirst

/-- Dropping what a block leaves out of lines does not change the state of the scan behind them. -/
theorem Classified.after_dedent (h : Classified quote? lines)
    (hlines : lines.map Prod.snd = raws.map dropReturns) (hraws : ∀ raw ∈ raws, '\n' ∉ raw)
    (hleast : ∀ line ∈ lines, line.1 = .code → least ≤ indentWidth line.2) :
    List.Forall₂ (fun raw kept => ∀ mode : Mode, mode.WellQuoted → mode.after raw = mode.after kept)
      raws (lines.map (dedent least)) := by
  induction h generalizing raws with
  | nil =>
    obtain rfl : raws = [] := List.map_eq_nil_iff.mp hlines.symm
    exact .nil
  | @cons quote? kind line lines hline _ ih =>
    cases raws with
    | nil => cases hlines
    | cons raw raws =>
      obtain ⟨hraw, hrest⟩ := List.cons.inj hlines
      obtain rfl : line = dropReturns raw := hraw
      rw [List.forall_mem_cons] at hraws hleast
      obtain ⟨indent, tail, hcut⟩ := hline.exists_cut hleast.1
      exact .cons (fun mode hmode => hcut.after_eq hraws.1 hmode) (ih hrest hraws.2 hleast.2)

theorem openBehind_dropReturns (hquote : ∀ q ∈ quote?, isQuote q = true)
    (hraws : ∀ raw ∈ raws, '\n' ∉ raw) :
    openBehind quote? (raws.map dropReturns) = openBehind quote? raws := by
  induction raws generalizing quote? with
  | nil => rfl
  | cons raw raws ih =>
    rw [List.forall_mem_cons] at hraws
    rw [List.map_cons, openBehind, List.foldl_cons,
      ← (surrounds_dropReturns raw).openQuote?_eq hraws.1 hquote]
    exact ih (isQuote_openQuote? hquote raw) hraws.2

/-- A line feed at the end begins no literal. -/
theorem tripleQuoted_feedLines (h : (Mode.code.after (joinLines raws)).Untripled) :
    tripleQuoted (feedLines raws) = tripleQuoted (joinLines raws) := by
  by_cases hne : raws = []
  · rw [hne]
    rfl
  · have hnothing : (extents (Mode.code.after (joinLines raws)) ['\n']).begun = [] := by
      rw [extents_lineFeed (wellQuoted_after wellQuoted_code _) h]
      simp [extents, Extents.none]
    rw [feedLines_eq hne, tripleQuoted, extents_append wellQuoted_code (calm_of_isBlank rfl []) _ h,
      hnothing, List.append_nil, tripleQuoted]

theorem keptLines_none_iff :
    KeptLines none u v ↔ List.Forall₂ Kept (tripleQuoted u) (tripleQuoted v) := by
  have hinner : ∀ text, (extents .code text).inner = [] := fun text =>
    inner_of_untripled wellQuoted_code text untripled_code
  refine ⟨KeptBehind.begun, fun hbegun => ⟨?_, hbegun⟩⟩
  rw [Mode.inside, hinner, hinner]
  exact .nil

/-- The literals of lines that leave none open are kept exactly if the lines are tidy. -/
theorem Classified.forall₂_kept_iff (h : Classified none lines)
    (hlines : lines.map Prod.snd = raws.map dropReturns) (hraws : ∀ raw ∈ raws, '\n' ∉ raw)
    (hleast : ∀ line ∈ lines, line.1 = .code → least ≤ indentWidth line.2)
    (hclosed : ClosedOnLines .code (joinLines raws))
    (hopen : openBehind none (lines.map Prod.snd) = none) :
    (Mode.code.after (joinLines raws)).Untripled ∧
      Mode.code.after (joinLines (lines.map (dedent least))) = Mode.code.after (joinLines raws) ∧
      (List.Forall₂ Kept (tripleQuoted (joinLines raws))
        (tripleQuoted (joinLines (lines.map (dedent least)))) ↔ ∀ line ∈ lines, IsTidy line) := by
  have hnone : ∀ q ∈ (none : Option Char), isQuote q = true := fun _ hq => by cases hq
  have hafter := (after_joinLines_congr (h.after_dedent hlines hraws hleast) _ wellQuoted_code).symm
  have huntripled : (Mode.code.after (joinLines raws)).Untripled := by
    rw [Mode.untripled_iff, ← hopen, hlines, openBehind_dropReturns hnone hraws]
    exact tripled?_after_joinLines hnone hclosed
  refine ⟨huntripled, hafter, ?_⟩
  -- A line feed at the end changes no literal, so the lines may all be taken to end with one.
  rw [← tripleQuoted_feedLines huntripled, ← tripleQuoted_feedLines (hafter ▸ huntripled),
    ← keptLines_none_iff]
  exact (h.keptLines_iff hlines hraws hleast hclosed).2

end Cookbook.Body
