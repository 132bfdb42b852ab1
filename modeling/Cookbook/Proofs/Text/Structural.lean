import Cookbook.Proofs.Text.Lines
import Cookbook.Proofs.Text.ScannedGroup

/-!
# Structural characters of a part

Every structural character stands in the text at its offset, so that the text can be cut there. The
scan of complete lines does not depend on what follows them: it needs to look at most two characters
ahead, for a quote in triple quotes, and never past a line feed.

## Main definitions

* `Unquoted`: no quote starts a text.
* `Mode.WellQuoted`: the modes that a scan can come to.

## Main results

* `scan_induction`: a scan goes on step by step, and what a step does is decided on complete lines.
* `standsAt_of_mem_structural`: where a structural character stands.
* `mode_scan`, `wellQuoted_mode_scan`: the state behind a text does not depend on its offset, and only
  quotes are open there.
* `mode_scan_blanks_append`, `mode_scan_append_blanks`: blanks around a text on a line do not change
  the state behind it.
* `scan_append`: the scan of complete lines with a text behind them.
* `matchingClose?_append`: what is closed on complete lines is closed there whatever follows.
-/

namespace Cookbook.Text

variable {text more rest : List Char} {start offset depth : Nat} {found : Nat × Char} {mode : Mode}
  {d : Delimiter} {c : Char}

/-! ## Delimiters with a text behind them -/

/-- What stands behind a text does not change how it is scanned: either that starts with no quote, or
the text is made of complete lines. -/
def Decided (text more : List Char) : Prop :=
  (∀ c ∈ more.head?, isQuote c = false) ∨ IsLines text

theorem decided_nil (text : List Char) : Decided text [] :=
  .inl fun _ h => by cases h

theorem isQuote_of_open? (h : Delimiter.open? (c :: rest) = none) : isQuote c = false := by
  cases hquote : isQuote c with
  | false => rfl
  | true =>
    rcases rest with _ | ⟨a, _ | ⟨b, after⟩⟩
    · simp [Delimiter.open?, hquote] at h
    · simp [Delimiter.open?, hquote] at h
    · simp only [Delimiter.open?, hquote, if_true] at h
      split at h <;> cases h

theorem eq_of_mem_delimiter (h : c ∈ d.text) : c = d.quote := by
  obtain ⟨q, _ | _⟩ := d <;> simpa [Delimiter.text] using h

/-- No delimiter starts in a text and ends behind it. -/
theorem Decided.not_across (hmore : Decided text more) (hquote : isQuote d.quote = true)
    (hne : text ≠ []) (h : d.text <+: text ++ more) : d.text <+: text := by
  obtain ⟨after, hafter⟩ := h
  rcases List.append_eq_append_iff.mp hafter with
    ⟨inside, htext, -⟩ | ⟨behind, hdelimiter, hbehind⟩
  · exact ⟨inside, htext.symm⟩
  · -- The delimiter is made of quotes, on either side of the end of the text.
    have hquotes : ∀ q ∈ text ++ behind, isQuote q = true := fun q hq =>
      eq_of_mem_delimiter (hdelimiter ▸ hq) ▸ hquote
    rcases hmore with hmore | hlines
    · cases behind with
      | nil => exact ⟨[], by rw [hdelimiter, List.append_nil, List.append_nil]⟩
      | cons q behind =>
        have hfalse := hmore q (by rw [hbehind]; rfl)
        rw [hquotes q (by simp)] at hfalse
        cases hfalse
    · obtain ⟨front, rfl⟩ := hlines.exists_eq_append hne
      cases hquotes '\n' (by simp)

/-- A literal is opened by three quotes, or else by one. -/
theorem open?_eq_some_iff : Delimiter.open? text = some (d, rest) ↔
    isQuote d.quote = true ∧ text = d.text ++ rest ∧
      (d.triple = false → ¬Delimiter.text ⟨d.quote, true⟩ <+: text) := by
  constructor
  · intro h
    obtain ⟨hquote, htext⟩ := eq_append_of_open? h
    refine ⟨hquote, htext, ?_⟩
    -- Three quotes would have been taken as the delimiter.
    rintro hsimple ⟨after, rfl⟩
    have hopened : some (⟨d.quote, true⟩, after) = some (d, rest) := by
      rw [← h]
      simp [Delimiter.text, Delimiter.open?, hquote]
    have htriple : (⟨d.quote, true⟩ : Delimiter) = d := congrArg Prod.fst (Option.some.inj hopened)
    rw [← htriple] at hsimple
    cases hsimple
  · obtain ⟨q, triple⟩ := d
    rintro ⟨hquote, rfl, htriple⟩
    cases triple with
    | true => simpa [Delimiter.text, Delimiter.open?] using hquote
    | false =>
      -- One quote is the delimiter if the text ends or another character stands within the next
      -- two.
      rcases rest with _ | ⟨a, _ | ⟨b, rest⟩⟩
      · simpa [Delimiter.text, Delimiter.open?] using hquote
      · simpa [Delimiter.text, Delimiter.open?] using hquote
      · have hother : ¬(a = q ∧ b = q) := by
          rintro ⟨rfl, rfl⟩
          exact htriple rfl (List.prefix_append _ rest)
        simpa [Delimiter.text, Delimiter.open?, hother] using hquote

/-- A delimiter that opens a literal is not longer with a text behind it. -/
theorem open?_append (h : Delimiter.open? text = some (d, rest)) (hmore : Decided text more) :
    Delimiter.open? (text ++ more) = some (d, rest ++ more) := by
  obtain ⟨hquote, htext, htriple⟩ := open?_eq_some_iff.mp h
  have hne : text ≠ [] := by
    rw [htext]
    exact List.append_ne_nil_of_left_ne_nil (List.ne_nil_of_length_pos d.length_text_pos) rest
  refine open?_eq_some_iff.mpr ⟨hquote, by rw [htext, List.append_assoc], ?_⟩
  intro hsimple hacross
  exact htriple hsimple (@Decided.not_across text more ⟨d.quote, true⟩ hmore hquote hne hacross)

/-- A literal that is not closed at the start of a text is not closed there with a text behind it. -/
theorem close?_eq_none_append (hquote : isQuote d.quote = true) (h : d.close? (c :: text) = none)
    (hmore : Decided (c :: text) more) : d.close? (c :: text ++ more) = none := by
  rw [Option.eq_none_iff_forall_ne_some]
  intro after hclose
  obtain ⟨inside, hinside⟩ := hmore.not_across hquote (List.cons_ne_nil c text)
    ⟨after, (eq_append_of_close? hclose).symm⟩
  rw [← hinside, close?_text_append] at h
  cases h

/-- No quote starts the text. -/
def Unquoted (text : List Char) : Prop :=
  ∀ c ∈ text.head?, isQuote c = false

/-- The body of a literal is taken in front of anything that starts with no quote. -/
theorem literalBody_append_of_unquoted {value : List Char} (hquote : isQuote d.quote = true)
    (h : literalBody d text = .done value rest) (hmore : Unquoted more) :
    literalBody d (text ++ more) = .done value (rest ++ more) := by
  fun_induction literalBody d text generalizing value with
  | case1 => cases h
  | case2 => cases h
  | case3 c text ih =>
    obtain ⟨found, hfound, rfl⟩ := map_eq_done h
    rw [List.cons_append, List.cons_append, literalBody, ih hfound]
    rfl
  | case4 c text hslash left hclose =>
    cases h
    rw [eq_append_of_close? hclose, List.append_assoc]
    exact literalBody_text hquote _
  | case5 => cases h
  | case6 c text hslash hclose hline ih =>
    obtain ⟨found, hfound, rfl⟩ := map_eq_done h
    -- Only here does the reader look ahead, for as far as a delimiter reaches.
    have hlong := close?_eq_none_append hquote hclose (.inl hmore)
    rw [List.cons_append] at hlong ⊢
    rw [literalBody.eq_4 _ _ _ hslash, hlong]
    simp only [hline, if_false]
    rw [ih hfound]
    rfl

/-- A literal is taken in front of anything that starts with no quote. -/
theorem literal_append_of_unquoted {value : List Char} (h : literal text = .done value rest)
    (hmore : Unquoted more) : literal (text ++ more) = .done value (rest ++ more) := by
  obtain ⟨d, body, hopen, hbody⟩ := eq_append_of_literal h
  have hquote := (eq_append_of_open? hopen).1
  rw [literal, open?_append hopen (.inl hmore)]
  exact literalBody_append_of_unquoted hquote hbody hmore

/-! ## Steps -/

/-- The quote of the literal that is open. -/
def Mode.quote? : Mode → Option Char
  | quoted quote | tripled quote => some quote
  | _ => none

/-- The quote of the triple-quoted literal that is open. -/
def Mode.tripled? : Mode → Option Char
  | tripled quote => some quote
  | _ => none

/-- Only quotes open literals. -/
def Mode.WellQuoted (mode : Mode) : Prop :=
  ∀ q ∈ mode.quote?, isQuote q = true

/-- Only quotes open a literal over several lines. -/
theorem Mode.WellQuoted.tripled (h : mode.WellQuoted) : ∀ q ∈ mode.tripled?, isQuote q = true := by
  intro q hq
  cases mode with
  | tripled quote => exact h q hq
  | _ => cases hq

theorem wellQuoted_code : Mode.code.WellQuoted :=
  fun _ h => by cases h

theorem wellQuoted_comment : Mode.comment.WellQuoted :=
  fun _ h => by cases h

theorem wellQuoted_mode (hquote : isQuote d.quote = true) : d.mode.WellQuoted := by
  obtain ⟨q, _ | _⟩ := d
  all_goals
    intro q h
    cases h
    exact hquote

/-- The scan keeps a character with its offset. -/
def Keeps (mode : Mode) (c : Char) (rest : List Char) : Prop :=
  ∀ offset, scan mode offset (c :: rest) =
    (scan .code (offset + byteSize [c]) rest).cons offset c

/-- The scan passes over `taken`. -/
def Passes (mode : Mode) (taken : List Char) (next : Mode) (rest : List Char) : Prop :=
  ∀ offset, scan mode offset (taken ++ rest) = scan next (offset + byteSize taken) rest

/-- How the scan goes on at the start of a text. -/
inductive Step (mode : Mode) : List Char → Prop where
  /-- A backslash at the end of the text escapes nothing. -/
  | dangling {q : Char} (h : mode = .quoted q) : Step mode ['\\']
  /-- A structural character is kept. -/
  | keep {c : Char} {rest : List Char} (h : ∀ more, Keeps mode c (rest ++ more)) :
      Step mode (c :: rest)
  /-- Other characters are passed over, on complete lines whatever follows. -/
  | pass {taken rest : List Char} {next : Mode} (hne : taken ≠ []) (hnext : next.WellQuoted)
      (h : ∀ more, Decided (taken ++ rest) more → Passes mode taken next (rest ++ more)) :
      Step mode (taken ++ rest)

/-- Outside literals a quote opens one, and a number sign starts a comment. -/
theorem step_code (c : Char) (text : List Char) : Step .code (c :: text) := by
  cases hopen : Delimiter.open? (c :: text) with
  | some opened =>
    obtain ⟨d, rest⟩ := opened
    obtain ⟨hquote, htext⟩ := eq_append_of_open? hopen
    rw [htext] at hopen ⊢
    refine .pass (List.ne_nil_of_length_pos d.length_text_pos) (wellQuoted_mode hquote)
      fun more hmore offset => ?_
    rw [← List.append_assoc]
    exact scan_open (open?_append hopen hmore) offset
  | none =>
    have hquote := isQuote_of_open? hopen
    by_cases hhash : c = '#'
    · subst hhash
      exact .pass (List.cons_ne_nil '#' []) wellQuoted_comment fun more _ offset =>
        scan_hash offset (text ++ more)
    · exact .keep fun more offset =>
        @scan_other false c (by simp) hhash hquote offset (text ++ more)

/-- A comment ends in front of the next line feed, which is kept. -/
theorem step_comment (c : Char) (text : List Char) : Step .comment (c :: text) := by
  by_cases hc : c = '\n'
  · subst hc
    exact .keep fun more offset =>
      @scan_other true '\n' (fun _ => rfl) (by decide) rfl offset (text ++ more)
  · exact .pass (List.cons_ne_nil c []) wellQuoted_comment fun more _ offset =>
      scan_comment hc offset (text ++ more)

/-- A literal ends with its delimiter, and in simple quotes a backslash escapes a character. -/
theorem step_literal (hquote : isQuote d.quote = true) (c : Char) (text : List Char) :
    Step d.mode (c :: text) := by
  cases hclose : d.close? (c :: text) with
  | some rest =>
    rw [eq_append_of_close? hclose]
    exact .pass (List.ne_nil_of_length_pos d.length_text_pos) wellQuoted_code
      fun more _ offset => scan_mode_close hquote offset (rest ++ more)
  | none =>
    by_cases hslash : c = '\\' ∧ d.triple = false
    · obtain ⟨rfl, hsimple⟩ := hslash
      cases text with
      | nil => exact .dangling (by rw [Delimiter.mode, hsimple, if_neg Bool.false_ne_true])
      | cons e text =>
        exact @Step.pass _ ['\\', e] text _ (by simp) (wellQuoted_mode hquote)
          fun more _ offset => scan_mode_escape hsimple offset e (text ++ more)
    · exact @Step.pass _ [c] text _ (by simp) (wellQuoted_mode hquote) fun more hmore offset =>
        scan_mode_skip (close?_eq_none_append hquote hclose hmore) hslash offset

theorem step (hmode : mode.WellQuoted) (c : Char) (text : List Char) : Step mode (c :: text) := by
  cases mode with
  | code => exact step_code c text
  | comment => exact step_comment c text
  | quoted q => exact @step_literal ⟨q, false⟩ (hmode q rfl) c text
  | tripled q => exact @step_literal ⟨q, true⟩ (hmode q rfl) c text

/-- What holds at the end of a text, and is kept by the steps in front of it, holds of every scan. -/
theorem scan_induction {motive : Mode → List Char → Prop} (nil : ∀ mode, motive mode [])
    (dangling : ∀ q, motive (.quoted q) ['\\'])
    (keep : ∀ mode c rest, Keeps mode c rest → (∀ more, Keeps mode c (rest ++ more)) →
      motive .code rest → motive mode (c :: rest))
    (pass : ∀ mode taken next rest, next.WellQuoted → Passes mode taken next rest →
      (∀ more, Decided (taken ++ rest) more → Passes mode taken next (rest ++ more)) →
        motive next rest → motive mode (taken ++ rest))
    (hmode : mode.WellQuoted) (text : List Char) : motive mode text := by
  -- A step may pass over several characters, so the induction is on the length.
  induction hlength : text.length using Nat.strongRecOn generalizing mode text with
  | ind length ih =>
    subst hlength
    cases text with
    | nil => exact nil mode
    | cons c text =>
      have hstep := step hmode c text
      generalize c :: text = whole at hstep ih
      cases hstep with
      | dangling h =>
        rw [h]
        exact dangling _
      | keep h =>
        have hhere := h []
        rw [List.append_nil] at hhere
        exact keep _ _ _ hhere h (ih _ (Nat.lt_succ_self _) wellQuoted_code _ rfl)
      | pass hne hnext h =>
        have hhere := h [] (decided_nil _)
        rw [List.append_nil] at hhere
        refine pass _ _ _ _ hnext hhere h (ih _ ?_ hnext _ rfl)
        rw [List.length_append]
        exact Nat.lt_add_of_pos_left (List.length_pos_iff.mpr hne)

/-! ## Where characters stand -/

/-- A character that stands in a text at its offset, the text being at `start`. -/
def StandsAt (text : List Char) (start : Nat) (found : Nat × Char) : Prop :=
  ∃ front back, text = front ++ found.2 :: back ∧ found.1 = start + byteSize front

theorem StandsAt.append (front : List Char) (h : StandsAt text (start + byteSize front) found) :
    StandsAt (front ++ text) start found := by
  obtain ⟨first, back, rfl, hoffset⟩ := h
  refine ⟨front ++ first, back, by rw [List.append_assoc], ?_⟩
  rw [hoffset, byteSize_append, Nat.add_assoc]

/-- A structural character stands in the text at its offset. -/
theorem standsAt_of_mem_scan (hmode : mode.WellQuoted) :
    ∀ start, found ∈ (scan mode start text).structural → StandsAt text start found := by
  refine scan_induction (motive := fun mode text => ∀ start,
    found ∈ (scan mode start text).structural → StandsAt text start found)
    ?nil ?dangling ?keep ?pass hmode text
  case nil => exact fun _ _ h => by cases h
  case dangling => exact fun _ _ h => by cases h
  -- Only a step that keeps its character adds to what is found.
  case keep =>
    intro mode c rest hkeeps _ ih start h
    rw [hkeeps] at h
    rcases List.mem_cons.mp h with rfl | h
    · exact ⟨[], rest, rfl, rfl⟩
    · exact (ih _ h).append [c]
  case pass =>
    intro mode taken next rest _ hpasses _ ih start h
    rw [hpasses] at h
    exact (ih _ h).append taken

theorem standsAt_of_mem_structural (h : found ∈ structural text) : StandsAt text 0 found :=
  standsAt_of_mem_scan wellQuoted_code 0 h

/-! ## The state behind a text -/

/-- The state behind a text does not depend on where the text stands. -/
theorem mode_scan (hmode : mode.WellQuoted) :
    ∀ start other, (scan mode start text).mode = (scan mode other text).mode := by
  refine scan_induction (motive := fun mode text => ∀ start other,
    (scan mode start text).mode = (scan mode other text).mode) ?nil ?dangling ?keep ?pass hmode text
  case nil => exact fun _ _ _ => rfl
  case dangling => exact fun _ _ _ => rfl
  case keep =>
    intro mode c rest hkeeps _ ih start other
    rw [hkeeps, hkeeps]
    exact ih _ _
  case pass =>
    intro mode taken next rest _ hpasses _ ih start other
    rw [hpasses, hpasses]
    exact ih _ _

/-- A scan comes to modes in which only quotes have opened literals. -/
theorem wellQuoted_mode_scan (hmode : mode.WellQuoted) :
    ∀ start, (scan mode start text).mode.WellQuoted := by
  refine scan_induction (motive := fun mode text => mode.WellQuoted → ∀ start,
    (scan mode start text).mode.WellQuoted) ?nil ?dangling ?keep ?pass hmode text hmode
  case nil => exact fun _ h _ => h
  case dangling => exact fun _ h _ => h
  case keep =>
    intro mode c rest hkeeps _ ih _ start
    rw [hkeeps]
    exact ih wellQuoted_code _
  case pass =>
    intro mode taken next rest hnext hpasses _ ih _ start
    rw [hpasses]
    exact ih hnext _

/-! ## Blanks -/

theorem ne_of_isBlank (h : isBlank c = true) : c ≠ '\\' ∧ c ≠ '#' ∧ isQuote c = false := by
  refine ⟨?_, ?_, ?_⟩
  · rintro rfl
    cases h
  · rintro rfl
    cases h
  · cases hquote : isQuote c with
    | false => rfl
    | true => rcases eq_of_isQuote hquote with rfl | rfl <;> cases h

/-- A comment goes on to the end of its line. -/
theorem mode_scan_comment (h : '\n' ∉ text) :
    ∀ start, (scan .comment start text).mode = .comment := by
  induction text with
  | nil => exact fun _ => rfl
  | cons c text ih =>
    rw [List.mem_cons, not_or] at h
    intro start
    rw [show scan .comment start (c :: text) = scan .comment (start + byteSize [c]) text from
      scan_comment (Ne.symm h.1) start text]
    exact ih h.2 _

/-- In a literal the scan passes over a blank. -/
theorem scan_mode_blank (hquote : isQuote d.quote = true) (hblank : isBlank c = true)
    (start : Nat) (rest : List Char) :
    scan d.mode start (c :: rest) = scan d.mode (start + byteSize [c]) rest := by
  obtain ⟨hslash, -, hother⟩ := ne_of_isBlank hblank
  refine scan_mode_skip ?_ (fun h => hslash h.1) start
  rw [Option.eq_none_iff_forall_ne_some]
  intro after hclose
  have hmem : c ∈ d.text := by
    have hhead := congrArg List.head? (eq_append_of_close? hclose)
    obtain ⟨q, _ | _⟩ := d <;> simpa [Delimiter.text] using hhead
  rw [eq_of_mem_delimiter hmem, hquote] at hother
  cases hother

/-- A blank within a line is kept or passed over, and leaves the state alone. -/
theorem scan_blank (hmode : mode.WellQuoted) (hblank : isBlank c = true) (hline : c ≠ '\n')
    (start : Nat) (rest : List Char) :
    scan mode start (c :: rest) = scan mode (start + byteSize [c]) rest ∨
      scan mode start (c :: rest) = (scan mode (start + byteSize [c]) rest).cons start c := by
  obtain ⟨-, hhash, hquote⟩ := ne_of_isBlank hblank
  cases mode with
  | code => exact .inr (@scan_other false c (fun h => by cases h) hhash hquote start rest)
  | comment => exact .inl (scan_comment hline start rest)
  | quoted q => exact .inl (@scan_mode_blank ⟨q, false⟩ c (hmode q rfl) hblank start rest)
  | tripled q => exact .inl (@scan_mode_blank ⟨q, true⟩ c (hmode q rfl) hblank start rest)

theorem mode_scan_blank (hmode : mode.WellQuoted) (hblank : isBlank c = true) (hline : c ≠ '\n')
    (start : Nat) (rest : List Char) :
    (scan mode start (c :: rest)).mode = (scan mode start rest).mode := by
  rcases scan_blank hmode hblank hline start rest with hscan | hscan
  all_goals
    rw [hscan]
    exact mode_scan hmode _ _

variable {blanks : List Char}

/-- Blanks in front of a text leave the state alone. -/
theorem mode_scan_blanks_append (hmode : mode.WellQuoted) (hblank : ∀ c ∈ blanks, isBlank c = true)
    (hline : '\n' ∉ blanks) (start : Nat) (text : List Char) :
    (scan mode start (blanks ++ text)).mode = (scan mode start text).mode := by
  induction blanks with
  | nil => rfl
  | cons c blanks ih =>
    rw [List.forall_mem_cons] at hblank
    rw [List.mem_cons, not_or] at hline
    rw [List.cons_append, mode_scan_blank hmode hblank.1 (Ne.symm hline.1), ih hblank.2 hline.2]

theorem mode_scan_blanks (hmode : mode.WellQuoted) (hblank : ∀ c ∈ blanks, isBlank c = true)
    (hline : '\n' ∉ blanks) (start : Nat) : (scan mode start blanks).mode = mode := by
  have hscan := mode_scan_blanks_append hmode hblank hline start []
  rw [List.append_nil] at hscan
  rw [hscan, scan]

/-- Blanks behind a text leave the state alone, too. -/
theorem mode_scan_append_blanks (hmode : mode.WellQuoted) (hblank : ∀ c ∈ blanks, isBlank c = true)
    (hline : '\n' ∉ blanks) : ∀ start,
    (scan mode start (text ++ blanks)).mode = (scan mode start text).mode := by
  have hdecided : ∀ text, Decided text blanks := fun _ => .inl fun c hc =>
    (ne_of_isBlank (hblank c (List.mem_of_head? hc))).2.2
  refine scan_induction (motive := fun mode text => mode.WellQuoted → ∀ start,
    (scan mode start (text ++ blanks)).mode = (scan mode start text).mode)
    ?nil ?dangling ?keep ?pass hmode text hmode
  case nil => exact fun _ hmode start => mode_scan_blanks hmode hblank hline start
  case dangling =>
    -- The backslash escapes the first blank.
    intro q hmode start
    cases blanks with
    | nil => rfl
    | cons c blanks =>
      rw [List.forall_mem_cons] at hblank
      rw [List.mem_cons, not_or] at hline
      calc (scan (.quoted q) start ('\\' :: c :: blanks)).mode
          = (scan (.quoted q) (start + byteSize ['\\', c]) blanks).mode :=
            congrArg Scan.mode (@scan_mode_escape ⟨q, false⟩ rfl start c blanks)
        _ = .quoted q := mode_scan_blanks hmode hblank.2 hline.2 _
        _ = (scan (.quoted q) start ['\\']).mode := by simp [scan]
  case keep =>
    intro mode c rest hkeeps hmore ih _ start
    rw [List.cons_append, hmore, hkeeps]
    exact ih wellQuoted_code _
  case pass =>
    intro mode taken next rest hnext hpasses hmore ih _ start
    rw [List.append_assoc, hmore blanks (hdecided _), hpasses]
    exact ih hnext _

/-! ## Complete lines -/

/-- One scan after another. -/
def Scan.append (s t : Scan) : Scan :=
  ⟨s.structural ++ t.structural, t.mode⟩

theorem Scan.cons_append (offset : Nat) (c : Char) (s t : Scan) :
    (s.cons offset c).append t = (s.append t).cons offset c :=
  rfl

/-- The scan of complete lines goes on behind them from the state that they end in. -/
theorem scan_append (hmode : mode.WellQuoted) (hlines : IsLines text) (more : List Char) :
    ∀ start, scan mode start (text ++ more) =
      (scan mode start text).append
        (scan (scan mode start text).mode (start + byteSize text) more) := by
  refine scan_induction (motive := fun mode text => IsLines text → ∀ start,
    scan mode start (text ++ more) = (scan mode start text).append
      (scan (scan mode start text).mode (start + byteSize text) more))
    ?nil ?dangling ?keep ?pass hmode text hlines
  case nil => exact fun _ _ _ => rfl
  case dangling => exact fun _ h => absurd (h '\\' rfl) (by decide)
  case keep =>
    intro mode c rest hkeeps hmore ih hlines start
    rw [List.cons_append, hmore more, hkeeps, Scan.cons_append, ih hlines.tail, byteSize_cons,
      byteSize_cons, byteSize_nil, Nat.add_zero, Nat.add_assoc]
    rfl
  -- A step may look ahead over the end of the text, but not where the text ends with a line.
  case pass =>
    intro mode taken next rest _ hpasses hmore ih hlines start
    rw [List.append_assoc, hmore more (.inr hlines), hpasses, ih hlines.right, byteSize_append,
      Nat.add_assoc]

/-- Complete lines have their structural characters whatever follows. -/
theorem exists_structural_append (hlines : IsLines text) (more : List Char) :
    ∃ others, structural (text ++ more) = structural text ++ others := by
  rw [structural, scan_append wellQuoted_code hlines]
  exact ⟨_, rfl⟩

/-! ## Brackets -/

theorem closeOf?_append {found others : List (Nat × Char)} (h : closeOf? depth found = some offset) :
    closeOf? depth (found ++ others) = some offset := by
  fun_induction closeOf? depth found
  case case1 | case3 => cases h
  case case2 c rest hopening ih => simpa [closeOf?, hopening] using ih h
  case case4 c rest hopening hclosing => simpa [closeOf?, hopening, hclosing] using h
  case case5 c rest hopening hclosing depth ih =>
    simpa [closeOf?, hopening, hclosing] using ih h
  case case6 c rest hopening hclosing ih => simpa [closeOf?, hopening, hclosing] using ih h

/-- Brackets are closed by a closing bracket. -/
theorem exists_isClosing_of_closeOf? {found : List (Nat × Char)}
    (h : closeOf? depth found = some offset) : ∃ c, isClosing c = true ∧ (offset, c) ∈ found := by
  fun_induction closeOf? depth found
  case case1 | case3 => cases h
  case case4 c rest hopening hclosing =>
    cases h
    exact ⟨c, hclosing, List.mem_cons_self⟩
  case case2 ih | case5 ih | case6 ih =>
    obtain ⟨c, hclosing, hmem⟩ := ih h
    exact ⟨c, hclosing, List.mem_cons_of_mem _ hmem⟩

/-- A bracket that is closed on complete lines is closed there whatever follows. -/
theorem matchingClose?_append (hlines : IsLines text) (h : matchingClose? text = some offset)
    (more : List Char) : matchingClose? (text ++ more) = some offset := by
  obtain ⟨others, hothers⟩ := exists_structural_append hlines more
  rw [matchingClose?, hothers]
  exact closeOf?_append h

/-- The bracket at the start of a text is closed by a closing bracket behind it. -/
theorem exists_of_matchingClose? (h : matchingClose? text = some offset) :
    ∃ group c rest, text = group ++ c :: rest ∧ isClosing c = true ∧ byteSize group = offset := by
  obtain ⟨c, hclosing, hmem⟩ := exists_isClosing_of_closeOf? h
  obtain ⟨group, rest, htext, hoffset⟩ := standsAt_of_mem_structural hmem
  exact ⟨group, c, rest, htext, hclosing, by simpa using hoffset.symm⟩

end Cookbook.Text
