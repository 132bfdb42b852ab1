import Cookbook.Proofs.Text.Structural

/-!
# Margins

The same text laid out in another way: spaces and tabs in front of every line that is not empty, and
carriage returns in front of every line feed. The scan reads both layouts in step: it comes to the
same states, and what it keeps in the margins are blanks.

## Main definitions

* `Margins.lay`: a text with margins.
* `Aligned`: structural characters of a text and of one with margins.

## Main results

* `Margins.aligned_structural`: the structural characters of a text with margins.
* `Margins.rel_matchingClose?`: with margins, a bracket is closed by the same one.
-/

namespace Cookbook.Text

/-- What stands in front of the lines of a text, and what stands in front of its line feeds. -/
structure Margins where
  front : List Char
  back : List Char
  front_indent : ∀ c ∈ front, c = ' ' ∨ c = '\t'
  back_returns : ∀ c ∈ back, c = '\r'

variable {m : Margins} {text front rest word : List Char} {c : Char} {b : Bool} {d : Delimiter}
  {mode next : Mode}

namespace Margins

/-- A text with margins; `b` tells whether it starts at the start of a line. Empty lines get nothing
in front. -/
def lay (m : Margins) : Bool → List Char → List Char
  | _, [] => []
  | b, c :: rest =>
    if c = '\n' then m.back ++ '\n' :: m.lay true rest
    else (if b then m.front else []) ++ c :: m.lay false rest

@[simp] theorem lay_nil (m : Margins) (b : Bool) : m.lay b [] = [] :=
  rfl

@[simp] theorem lay_lineFeed (m : Margins) (b : Bool) (rest : List Char) :
    m.lay b ('\n' :: rest) = m.back ++ '\n' :: m.lay true rest := by
  rw [lay, if_pos rfl]

theorem lay_cons (hc : c ≠ '\n') (rest : List Char) :
    m.lay false (c :: rest) = c :: m.lay false rest := by
  simp [lay, hc]

theorem lay_of_ne (hc : c ≠ '\n') (b : Bool) (rest : List Char) :
    m.lay b (c :: rest) = (if b then m.front else []) ++ c :: m.lay false rest := by
  rw [lay, if_neg hc]

theorem lay_true_cons (hc : c ≠ '\n') (rest : List Char) :
    m.lay true (c :: rest) = m.front ++ m.lay false (c :: rest) := by
  simp [lay, hc]

/-- Whether a line starts behind a text, if `b` tells whether one starts in front of it. -/
def atStart (b : Bool) : List Char → Bool
  | [] => b
  | c :: rest => atStart (c == '\n') rest

theorem lay_append (m : Margins) (b : Bool) (front rest : List Char) :
    m.lay b (front ++ rest) = m.lay b front ++ m.lay (atStart b front) rest := by
  induction front generalizing b with
  | nil => rfl
  | cons c front ih =>
    rw [List.cons_append, atStart]
    by_cases hc : c = '\n'
    · rw [hc, lay_lineFeed, lay_lineFeed, ih, beq_self_eq_true, List.append_assoc,
        List.cons_append]
    · rw [lay_of_ne hc, lay_of_ne hc, ih, beq_eq_false_iff_ne.mpr hc, List.append_assoc,
        List.cons_append]

/-- Nothing is put into a line. -/
theorem lay_word_append (h : '\n' ∉ word) (rest : List Char) :
    m.lay false (word ++ rest) = word ++ m.lay false rest := by
  induction word with
  | nil => rfl
  | cons c word ih =>
    rw [List.mem_cons, not_or] at h
    rw [List.cons_append, lay_cons (Ne.symm h.1), ih h.2, List.cons_append]

theorem isBlank_of_mem_front (h : c ∈ m.front) : isBlank c = true ∧ c ≠ '\n' := by
  rcases m.front_indent c h with rfl | rfl <;> decide

theorem isBlank_of_mem_back (h : c ∈ m.back) : isBlank c = true ∧ c ≠ '\n' := by
  rw [m.back_returns c h]
  decide

/-! ## Characters -/

/-- A text gets nothing but blanks. -/
theorem mem_lay (h : c ∈ m.lay b text) : c ∈ text ∨ isBlank c = true := by
  induction text generalizing b with
  | nil => cases h
  | cons e text ih =>
    by_cases he : e = '\n'
    · rw [he, lay_lineFeed, List.mem_append, List.mem_cons] at h
      rcases h with h | rfl | h
      · exact .inr (isBlank_of_mem_back h).1
      · exact .inr rfl
      · exact (ih h).imp_left (List.mem_cons_of_mem _)
    · rw [lay_of_ne he, List.mem_append, List.mem_cons] at h
      rcases h with h | rfl | h
      · split at h
        · exact .inr (isBlank_of_mem_front h).1
        · cases h
      · exact .inl List.mem_cons_self
      · exact (ih h).imp_left (List.mem_cons_of_mem _)

/-- A character that is no blank stands first behind the same text with margins. -/
theorem breakOn?_lay (hc : isBlank c = false) (h : breakOn? [c] text = some (front, rest)) :
    ∃ laid, breakOn? [c] (m.lay b text) = some (laid, m.lay false rest) := by
  have hline : c ≠ '\n' := by
    rintro rfl
    cases hc
  -- What stands before has got blanks only, and so has the line of the character itself.
  have hlaid : c ∉ m.lay b front ++ if atStart b front then m.front else [] := by
    rw [List.mem_append, not_or]
    constructor
    · intro hmem
      rcases mem_lay hmem with hmem | hblank
      · exact not_mem_of_breakOn? h hmem
      · rw [hc] at hblank
        cases hblank
    · split
      · intro hmem
        rw [(isBlank_of_mem_front hmem).1] at hc
        cases hc
      · exact List.not_mem_nil
  rw [append_of_breakOn? h, List.append_assoc, List.singleton_append, lay_append, lay_of_ne hline,
    ← List.append_assoc]
  exact ⟨_, breakOn?_of_not_mem hlaid _⟩

theorem breakOn?_lay_eq_none (hc : isBlank c = false) (h : breakOn? [c] text = none) :
    breakOn? [c] (m.lay b text) = none := by
  rw [Option.eq_none_iff_forall_ne_some]
  rintro ⟨front, rest⟩ hbreak
  have hmem : c ∈ m.lay b text := by
    rw [append_of_breakOn? hbreak]
    simp
  rcases mem_lay hmem with hmem | hblank
  · exact not_mem_of_breakOn?_eq_none h hmem
  · rw [hc] at hblank
    cases hblank

/-! ## Delimiters -/

/-- A text starts with the same word with margins, unless the word reaches to one of them. -/
theorem prefix_lay_iff (hline : '\n' ∉ word) (hback : ∀ c ∈ m.back, c ∉ word) (text : List Char) :
    word <+: m.lay false text ↔ word <+: text := by
  -- Character by character, up to the first line feed of the text. There the word differs from the
  -- text, and from the margin as well.
  induction word generalizing text with
  | nil => simp
  | cons c word ih =>
    rw [List.mem_cons, not_or] at hline
    cases text with
    | nil => simp
    | cons e text =>
      by_cases he : e = '\n'
      · subst he
        have hother : ¬c :: word <+: '\n' :: text := by
          rw [List.cons_prefix_cons]
          exact fun h => hline.1 h.1.symm
        refine iff_of_false ?_ hother
        rw [lay_lineFeed]
        cases hreturns : m.back with
        | nil => exact fun h => hline.1 (List.cons_prefix_cons.mp h).1.symm
        | cons r returns =>
          intro h
          have hr : r ∈ m.back := by simp [hreturns]
          exact hback r hr ((List.cons_prefix_cons.mp h).1 ▸ List.mem_cons_self)
      · rw [lay_cons he, List.cons_prefix_cons, List.cons_prefix_cons,
          ih hline.2 fun r hr hmem => hback r hr (List.mem_cons_of_mem c hmem)]

/-- Delimiters reach to no margin. -/
theorem delimiter_prefix_lay_iff (hquote : isQuote d.quote = true) (text : List Char) :
    d.text <+: m.lay false text ↔ d.text <+: text := by
  have hmem : ∀ c ∈ d.text, isBlank c = false := by
    intro c hc
    rw [eq_of_mem_delimiter hc]
    rcases eq_of_isQuote hquote with h | h <;> rw [h] <;> rfl
  refine prefix_lay_iff (fun h => ?_) (fun c hc h => ?_) text
  · cases hmem '\n' h
  · exact Bool.false_ne_true ((hmem c h).symm.trans (isBlank_of_mem_back hc).1)

theorem noLineFeed_delimiter (hquote : isQuote d.quote = true) : '\n' ∉ d.text := by
  intro h
  rw [← eq_of_mem_delimiter h] at hquote
  cases hquote

/-- The same literals are opened with margins. -/
theorem open?_lay (h : Delimiter.open? text = some (d, rest)) :
    Delimiter.open? (m.lay false text) = some (d, m.lay false rest) := by
  obtain ⟨hquote, rfl, htriple⟩ := open?_eq_some_iff.mp h
  refine open?_eq_some_iff.mpr ⟨hquote, lay_word_append (noLineFeed_delimiter hquote) rest, ?_⟩
  intro hsimple hprefix
  exact htriple hsimple ((@delimiter_prefix_lay_iff m ⟨d.quote, true⟩ hquote _).mp hprefix)

/-- The same literals are closed with margins. -/
theorem close?_lay_eq_none (hquote : isQuote d.quote = true) (h : d.close? text = none) :
    d.close? (m.lay false text) = none := by
  rw [Option.eq_none_iff_forall_ne_some] at h ⊢
  intro after hafter
  obtain ⟨rest, hrest⟩ := (delimiter_prefix_lay_iff hquote text).mp
    ⟨after, (eq_append_of_close? hafter).symm⟩
  exact h rest (by rw [← hrest, close?_text_append])

end Margins

/-! ## Structural characters -/

/-- Structural characters of a text, and of the same text with margins. There are blanks among these,
and the other characters are the same, at offsets that `R` relates; line feeds may stand anywhere. -/
inductive Aligned (R : Nat → Nat → Prop) : List (Nat × Char) → List (Nat × Char) → Prop where
  | nil : Aligned R [] []
  | blank {offset : Nat} {c : Char} {found others : List (Nat × Char)} (hblank : isBlank c = true)
      (hline : c ≠ '\n') (hrest : Aligned R found others) : Aligned R found ((offset, c) :: others)
  | lineFeed {offset other : Nat} {found others : List (Nat × Char)} (hrest : Aligned R found others) :
      Aligned R ((offset, '\n') :: found) ((other, '\n') :: others)
  | same {offset other : Nat} {c : Char} {found others : List (Nat × Char)} (h : R offset other)
      (hrest : Aligned R found others) : Aligned R ((offset, c) :: found) ((other, c) :: others)

variable {R : Nat → Nat → Prop} {found others : List (Nat × Char)} {depth : Nat}

theorem of_isBlank (h : isBlank c = true) :
    isOpening c = false ∧ isClosing c = false ∧ c ≠ ':' := by
  refine ⟨?_, ?_, ?_⟩
  · cases hopening : isOpening c with
    | false => rfl
    | true => rcases eq_of_isOpening hopening with rfl | rfl | rfl <;> cases h
  · cases hclosing : isClosing c with
    | false => rfl
    | true => rcases eq_of_isClosing hclosing with rfl | rfl | rfl <;> cases h
  · rintro rfl
    cases h

/-- Among blanks, brackets are closed by the same ones. -/
theorem Aligned.rel_closeOf? (h : Aligned R found others) (depth : Nat) :
    Option.Rel R (closeOf? depth found) (closeOf? depth others) := by
  induction h generalizing depth with
  | nil => exact .none
  | @blank offset c found others hblank hline _ ih =>
    obtain ⟨hopening, hclosing, -⟩ := of_isBlank hblank
    simpa [closeOf?.eq_def depth (_ :: _), hopening, hclosing] using ih depth
  | lineFeed _ ih => simpa [closeOf?.eq_def depth (_ :: _), isOpening, isClosing] using ih depth
  | @same offset other c found others hoffset _ ih =>
    rw [closeOf?.eq_def depth (_ :: found), closeOf?.eq_def depth (_ :: others)]
    dsimp only
    by_cases hopening : isOpening c = true
    · rw [if_pos hopening, if_pos hopening]
      exact ih (depth + 1)
    · rw [if_neg hopening, if_neg hopening]
      by_cases hclosing : isClosing c = true
      -- Depth one is that of the bracket to be closed.
      · rw [if_pos hclosing, if_pos hclosing]
        rcases depth with _ | _ | depth
        · exact .none
        · exact .some hoffset
        · exact ih (depth + 1)
      · rw [if_neg hclosing, if_neg hclosing]
        exact ih depth

namespace Margins

/-- An offset in a text and one in the same text with margins: what follows is the same but for the
margins. -/
def Matches (m : Margins) (text other : List Char) (offset laid : Nat) : Prop :=
  dropBytes laid other = m.lay false (dropBytes offset text)

/-- The scan of a text and of the same text with margins, whatever stands in front of either. -/
def Alike (m : Margins) (b : Bool) (mode : Mode) (text : List Char) : Prop :=
  ∀ front back, Aligned (m.Matches (front ++ text) (back ++ m.lay b text))
    (scan mode (byteSize front) text).structural
    (scan mode (byteSize back) (m.lay b text)).structural

/-- Both scans pass over a word. -/
theorem Alike.pass (h : m.Alike false next rest) (hword : '\n' ∉ word)
    (hpasses : Passes mode word next rest) (hlaid : Passes mode word next (m.lay false rest)) :
    m.Alike false mode (word ++ rest) := by
  intro front back
  have hrest := h (front ++ word) (back ++ word)
  rw [byteSize_append, byteSize_append, List.append_assoc, List.append_assoc] at hrest
  rw [lay_word_append hword, hpasses, hlaid]
  exact hrest

/-- Both scans keep a character. -/
theorem Alike.keep (h : m.Alike false .code rest) (hc : c ≠ '\n') (hkeeps : Keeps mode c rest)
    (hlaid : Keeps mode c (m.lay false rest)) : m.Alike false mode (c :: rest) := by
  intro front back
  have hrest := h (front ++ [c]) (back ++ [c])
  rw [byteSize_append, byteSize_append, List.append_assoc, List.append_assoc] at hrest
  have hhere : m.Matches (front ++ c :: rest) (back ++ m.lay false (c :: rest)) (byteSize front)
      (byteSize back) := by
    rw [Matches, dropBytes_byteSize_append, dropBytes_byteSize_append]
  rw [lay_cons hc] at hhere ⊢
  rw [hkeeps, hlaid]
  exact .same hhere hrest

end Margins

/-- Blanks on a line do not count. -/
theorem Aligned.of_blanks {blanks : List Char} (hmode : mode.WellQuoted)
    (hblank : ∀ c ∈ blanks, isBlank c = true ∧ c ≠ '\n') {start : Nat}
    (h : Aligned R found (scan mode (start + byteSize blanks) text).structural) :
    Aligned R found (scan mode start (blanks ++ text)).structural := by
  induction blanks generalizing start with
  | nil => exact h
  | cons c blanks ih =>
    rw [List.forall_mem_cons] at hblank
    have hrest := @ih hblank.2 (start + byteSize [c]) (by simpa [Nat.add_assoc] using h)
    rcases scan_blank hmode hblank.1.1 hblank.1.2 start (blanks ++ text) with hscan | hscan
    · rw [List.cons_append, hscan]
      exact hrest
    · rw [List.cons_append, hscan]
      exact .blank hblank.1.1 hblank.1.2 hrest

/-- A line feed is kept, or it stands in a literal. -/
theorem lineFeed_step (hmode : mode.WellQuoted) :
    (∀ rest, Keeps mode '\n' rest) ∨ ∀ rest, Passes mode ['\n'] mode rest := by
  cases mode with
  | code => exact .inl fun rest offset =>
      @scan_other false '\n' (fun h => by cases h) (by decide) rfl offset rest
  | comment => exact .inl fun rest offset =>
      @scan_other true '\n' (fun _ => rfl) (by decide) rfl offset rest
  | quoted q => exact .inr fun rest offset =>
      @scan_mode_blank ⟨q, false⟩ '\n' (hmode q rfl) rfl offset rest
  | tripled q => exact .inr fun rest offset =>
      @scan_mode_blank ⟨q, true⟩ '\n' (hmode q rfl) rfl offset rest

namespace Margins

/-- A line feed with the margins around it. -/
theorem alike_lineFeed (hmode : mode.WellQuoted)
    (h : ∀ next : Mode, next.WellQuoted → m.Alike true next rest) (b : Bool) :
    m.Alike b mode ('\n' :: rest) := by
  intro front back
  have hrest : ∀ next : Mode, next.WellQuoted → _ := fun next hnext =>
    h next hnext (front ++ ['\n']) (back ++ m.back ++ ['\n'])
  simp only [byteSize_append, List.append_assoc, List.singleton_append] at hrest
  rw [lay_lineFeed]
  refine .of_blanks hmode (fun _ => isBlank_of_mem_back) ?_
  rcases lineFeed_step hmode with hkeeps | hpasses
  · rw [hkeeps, hkeeps]
    refine .lineFeed ?_
    simpa only [Nat.add_assoc] using hrest .code wellQuoted_code
  · have hpass : ∀ rest, ∀ offset, scan mode offset ('\n' :: rest) =
        scan mode (offset + byteSize ['\n']) rest := hpasses
    rw [hpass, hpass]
    simpa only [Nat.add_assoc] using hrest mode hmode

/-- What stands in front of a line does not count. -/
theorem Alike.at_start (h : m.Alike false mode (c :: rest)) (hmode : mode.WellQuoted)
    (hc : c ≠ '\n') : m.Alike true mode (c :: rest) := by
  intro front back
  have hrest := h front (back ++ m.front)
  rw [byteSize_append, List.append_assoc] at hrest
  rw [lay_true_cons hc]
  exact .of_blanks hmode (fun _ => isBlank_of_mem_front) hrest

/-- A backslash in front of a line feed escapes this, or a margin in front of it. -/
theorem alike_escape_lineFeed (hquote : isQuote d.quote = true) (hsimple : d.triple = false)
    (h : m.Alike true d.mode rest) : m.Alike false d.mode ('\\' :: '\n' :: rest) := by
  intro front back
  have hlaid := h (front ++ ['\\', '\n']) (back ++ '\\' :: (m.back ++ ['\n']))
  simp only [byteSize_append, List.append_assoc, List.cons_append, List.nil_append] at hlaid
  rw [lay_cons (by decide), lay_lineFeed, scan_mode_escape hsimple]
  -- In front of a line feed there may be carriage returns now, and then the backslash escapes the
  -- first of them. What is left of them are blanks.
  cases hreturns : m.back with
  | nil =>
    rw [hreturns] at hlaid
    rw [List.nil_append, scan_mode_escape hsimple]
    exact hlaid
  | cons r returns =>
    have hblank : ∀ c ∈ returns, isBlank c = true ∧ c ≠ '\n' := fun c hc =>
      @isBlank_of_mem_back m c (by simp [hreturns, hc])
    rw [hreturns] at hlaid
    rw [List.cons_append, scan_mode_escape hsimple]
    refine .of_blanks (wellQuoted_mode hquote) hblank ?_
    rw [scan_mode_blank hquote (by rfl)]
    simpa [Nat.add_assoc] using hlaid

/-- In a literal both scans end it, or they pass over the same characters. -/
theorem alike_literal (hquote : isQuote d.quote = true) (hc : c ≠ '\n')
    (ih : ∀ b next, next.WellQuoted → ∀ after, after.length ≤ rest.length → m.Alike b next after) :
    m.Alike false d.mode (c :: rest) := by
  -- Margins stand around line feeds only, so a delimiter closes the literal with them exactly if it
  -- does so without them.
  cases hclose : d.close? (c :: rest) with
  | some after =>
    have htext := eq_append_of_close? hclose
    rw [htext]
    refine (ih _ _ wellQuoted_code after ?_).pass (noLineFeed_delimiter hquote)
      (fun offset => scan_mode_close hquote offset _) fun offset => scan_mode_close hquote offset _
    have hlength := congrArg List.length htext
    have hpos := d.length_text_pos
    rw [List.length_cons, List.length_append] at hlength
    omega
  | none =>
    have hlaid := @close?_lay_eq_none m _ d hquote hclose
    rw [lay_cons hc] at hlaid
    -- An escaped character is passed over together with its backslash.
    by_cases hslash : c = '\\' ∧ d.triple = false
    · obtain ⟨rfl, hsimple⟩ := hslash
      cases rest with
      | nil =>
        intro front back
        have hdangling : ∀ offset, (scan d.mode offset ['\\']).structural = [] := by
          intro offset
          simp [Delimiter.mode, hsimple, scan]
        rw [lay_cons hc, lay_nil, hdangling, hdangling]
        exact .nil
      | cons e rest =>
        by_cases he : e = '\n'
        -- With margins a carriage return may be escaped in place of the line feed.
        · subst he
          exact alike_escape_lineFeed hquote hsimple
            (ih _ _ (wellQuoted_mode hquote) rest (Nat.le_succ _))
        · exact @Alike.pass m rest ['\\', e] _ _
            (ih _ _ (wellQuoted_mode hquote) rest (Nat.le_succ _)) (by simp [Ne.symm he])
            (fun offset => scan_mode_escape hsimple offset e rest)
            fun offset => scan_mode_escape hsimple offset e _
    · exact @Alike.pass m rest [c] _ _ (ih _ _ (wellQuoted_mode hquote) rest (Nat.le_refl _))
        (by simp [Ne.symm hc]) (fun offset => scan_mode_skip hclose hslash offset)
        fun offset => scan_mode_skip hlaid hslash offset

theorem alike_comment (hc : c ≠ '\n') (ih : m.Alike false .comment rest) :
    m.Alike false .comment (c :: rest) :=
  @Alike.pass m rest [c] _ _ ih (by simp [Ne.symm hc])
    (fun offset => scan_comment hc offset rest) fun offset => scan_comment hc offset _

theorem alike_code (hc : c ≠ '\n')
    (ih : ∀ b next, next.WellQuoted → ∀ after, after.length ≤ rest.length → m.Alike b next after) :
    m.Alike false .code (c :: rest) := by
  -- A delimiter has no line feed in it, so it is the same with margins and opens the same literal.
  cases hopen : Delimiter.open? (c :: rest) with
  | some opened =>
    obtain ⟨d, after⟩ := opened
    obtain ⟨hquote, htext⟩ := eq_append_of_open? hopen
    have hlaid := @open?_lay m _ after d hopen
    rw [htext, lay_word_append (noLineFeed_delimiter hquote)] at hlaid
    rw [htext] at hopen ⊢
    refine (ih _ _ (wellQuoted_mode hquote) after ?_).pass (noLineFeed_delimiter hquote)
      (scan_open hopen) (scan_open hlaid)
    have hlength := congrArg List.length htext
    have hpos := d.length_text_pos
    rw [List.length_cons, List.length_append] at hlength
    omega
  | none =>
    have hquote := isQuote_of_open? hopen
    by_cases hhash : c = '#'
    · subst hhash
      exact @Alike.pass m rest ['#'] _ _ (ih _ _ wellQuoted_comment rest (Nat.le_refl _)) (by simp)
        (fun offset => scan_hash offset rest) fun offset => scan_hash offset _
    · have hkeeps : ∀ rest, Keeps .code c rest := fun rest offset =>
        @scan_other false c (fun h => by cases h) hhash hquote offset rest
      exact (ih _ _ wellQuoted_code rest (Nat.le_refl _)).keep hc (hkeeps _) (hkeeps _)

/-- The scan of a text and that of the same text with margins go in step. -/
theorem alike (hmode : mode.WellQuoted) (b : Bool) (text : List Char) : m.Alike b mode text := by
  -- Literals and comments are passed over in steps of several characters, so the induction is on
  -- the length.
  induction hlength : text.length using Nat.strongRecOn generalizing mode b text with
  | ind length ih =>
    subst hlength
    cases text with
    | nil => exact fun _ _ => .nil
    | cons c rest =>
      have hrest : ∀ b next, next.WellQuoted → ∀ after : List Char, after.length ≤ rest.length →
          m.Alike b next after := fun b next hnext after hlength =>
        ih _ (Nat.lt_succ_of_le hlength) hnext _ after rfl
      by_cases hc : c = '\n'
      · subst hc
        exact alike_lineFeed hmode (fun next hnext => hrest true next hnext rest (Nat.le_refl _)) b
      · have hline : m.Alike false mode (c :: rest) := by
          cases mode with
          | code => exact alike_code hc hrest
          | comment => exact alike_comment hc (hrest _ _ wellQuoted_comment rest (Nat.le_refl _))
          | quoted q => exact @alike_literal m rest c ⟨q, false⟩ (hmode q rfl) hc hrest
          | tripled q => exact @alike_literal m rest c ⟨q, true⟩ (hmode q rfl) hc hrest
        -- At the start of a line the margin is scanned first.
        cases b with
        | false => exact hline
        | true => exact hline.at_start hmode hc

/-- With margins a text has the same structural characters, but for blanks. -/
theorem aligned_structural (m : Margins) (text : List Char) :
    Aligned (m.Matches text (m.lay false text)) (structural text) (structural (m.lay false text)) :=
  alike wellQuoted_code false text [] []

/-- With margins the bracket at the start of a text is closed by the same one. -/
theorem rel_matchingClose? (m : Margins) (text : List Char) :
    Option.Rel (m.Matches text (m.lay false text)) (matchingClose? text)
      (matchingClose? (m.lay false text)) :=
  (m.aligned_structural text).rel_closeOf? 0

end Margins

end Cookbook.Text
