import Cookbook.Proofs.Text.Structural

/-!
# Triple-quoted literals

The triple-quoted literals of a text with what stands in them. They are found by the same steps as
the structural characters: where the scan passes over a literal, its content is kept.

## Main definitions

* `extents`: the triple-quoted literals that begin in a text.
* `Mode.after`: the state of the scan behind a text.
* `ClosedOnLines`: no literal in simple quotes goes over the end of a line.

## Main results

* `extents_induction`: the scan and the extents go on step by step.
* `after_append`, `extents_append`: the state behind a text and its literals, with more text behind.
* `extents_blanks`, `extents_tripled_blanks`: blanks count in triple-quoted literals only.
* `after_line`: the state behind a line and what follows it.
-/

namespace Cookbook.Text

/-! ## Extents -/

/-- A literal in triple quotes: one of the quotes, and what stands between them. -/
structure TripleQuoted where
  quote : Char
  content : List Char
  deriving DecidableEq, Repr

/-- What a text holds of triple-quoted literals. -/
structure Extents where
  /-- What belongs to the literal that is open in front of the text. -/
  inner : List Char
  /-- The literals that begin in the text. The last one may be open. -/
  begun : List TripleQuoted
  deriving DecidableEq, Repr

namespace Extents

/-- Nothing. -/
def none : Extents := ⟨[], []⟩

/-- Puts a character of the literal that is open in front. -/
def hold (c : Char) (e : Extents) : Extents :=
  { e with inner := c :: e.inner }

/-- Puts the opening quotes of a literal in front. -/
def enter (quote : Char) (e : Extents) : Extents :=
  ⟨[], ⟨quote, e.inner⟩ :: e.begun⟩

end Extents

/-- The extents of a text of which the scan starts in a mode. -/
def extents (mode : Mode) : List Char → Extents
  | [] => .none
  | c :: rest =>
    match mode with
    | .comment => extents (if c = '\n' then .code else .comment) rest
    | .quoted q =>
      if c = '\\' then
        match rest with
        | [] => .none
        | _ :: rest => extents (.quoted q) rest
      else extents (if c = q then .code else .quoted q) rest
    | .tripled q =>
      match rest with
      | a :: b :: rest =>
        if c = q ∧ a = q ∧ b = q then extents .code rest
        else (extents (.tripled q) (a :: b :: rest)).hold c
      | rest => (extents (.tripled q) rest).hold c
    | .code =>
      if isQuote c then
        match rest with
        | a :: b :: rest =>
          if a = c ∧ b = c then (extents (.tripled c) rest).enter c
          else extents (.quoted c) (a :: b :: rest)
        | rest => extents (.quoted c) rest
      else extents (if c = '#' then .comment else .code) rest

/-- The triple-quoted literals of a text. -/
def tripleQuoted (text : List Char) : List TripleQuoted :=
  (extents .code text).begun

/-- The state of the scan behind a text. -/
def Mode.after (mode : Mode) (text : List Char) : Mode :=
  (scan mode 0 text).mode

example : tripleQuoted "x = '\"\"\"' + \"\"\"a\nb\"\"\" # '''".toList = [⟨'"', "a\nb".toList⟩] := by
  decide +kernel

variable {text more rest : List Char} {c q : Char} {d : Delimiter} {mode : Mode}

/-! ## Single steps -/

/-- What opens a literal does with its extents. -/
def Delimiter.enter (d : Delimiter) (e : Extents) : Extents :=
  if d.triple then e.enter d.quote else e

/-- What a character of a literal does with its extents. -/
def Delimiter.hold (d : Delimiter) (c : Char) (e : Extents) : Extents :=
  if d.triple then e.hold c else e

theorem extents_open (h : Delimiter.open? text = some (d, rest)) :
    extents .code text = d.enter (extents d.mode rest) := by
  -- Both look at the same three characters to tell which delimiter it is.
  unfold Delimiter.open? at h
  split at h
  · cases h
  · next q after =>
    split at h
    · next hq =>
      split at h
      · next a b after' =>
        split at h
        · next hab =>
          cases h
          simp [extents, hq, hab, Delimiter.mode, Delimiter.enter]
        · next hab =>
          cases h
          simp [extents, hq, hab, Delimiter.mode, Delimiter.enter]
      · next hshort =>
        cases h
        simp only [extents, hq, if_true]
        rfl
    · cases h

theorem extents_other (hquote : isQuote c = false) (rest : List Char) :
    extents .code (c :: rest) = extents (if c = '#' then .comment else .code) rest := by
  rw [extents.eq_def]
  simp [hquote]

theorem extents_close (hquote : isQuote d.quote = true) (rest : List Char) :
    extents d.mode (d.text ++ rest) = extents .code rest := by
  obtain ⟨q, triple⟩ := d
  have hslash : q ≠ '\\' := ne_backslash_of_isQuote hquote
  cases triple with
  | false =>
    show extents (.quoted q) (q :: rest) = _
    rw [extents.eq_def]
    simp [hslash]
  | true => simp [Delimiter.mode, Delimiter.text, extents]

theorem extents_escape (hsimple : d.triple = false) (e : Char) (rest : List Char) :
    extents d.mode ('\\' :: e :: rest) = extents d.mode rest := by
  simp [Delimiter.mode, hsimple, extents]

theorem extents_hold (hclose : d.close? (c :: rest) = none)
    (hslash : ¬(c = '\\' ∧ d.triple = false)) :
    extents d.mode (c :: rest) = d.hold c (extents d.mode rest) := by
  obtain ⟨q, triple⟩ := d
  cases triple with
  | false =>
    have hne : c ≠ '\\' := fun h => hslash ⟨h, rfl⟩
    have hother : c ≠ q := by
      rintro rfl
      simp [close?_simple] at hclose
    show extents (.quoted q) (c :: rest) = extents (.quoted q) rest
    rw [extents.eq_def]
    simp [hne, hother]
  | true =>
    -- As in the scan: too few characters are left, or one of the next three is no quote.
    rcases rest with _ | ⟨a, _ | ⟨b, rest⟩⟩
    · simp [Delimiter.mode, Delimiter.hold, extents]
    · simp [Delimiter.mode, Delimiter.hold, extents]
    · have hother : ¬(c = q ∧ a = q ∧ b = q) := by
        rintro ⟨rfl, rfl, rfl⟩
        rw [close?_triple_eq_some_iff.mpr rfl] at hclose
        cases hclose
      simp [Delimiter.mode, Delimiter.hold, extents, hother]

/-! ## Step by step -/

/-- The scan passes over `taken`, and `put` makes the extents of the whole from those of the rest. -/
structure Goes (mode : Mode) (taken : List Char) (next : Mode) (put : Extents → Extents)
    (rest : List Char) : Prop where
  after_eq : mode.after (taken ++ rest) = next.after rest
  extents_eq : extents mode (taken ++ rest) = put (extents next rest)

theorem after_eq_of_scan {next : Mode} {taken : List Char} {offset : Nat} (hnext : next.WellQuoted)
    (h : scan mode 0 (taken ++ rest) = scan next offset rest) :
    mode.after (taken ++ rest) = next.after rest := by
  rw [Mode.after, h]
  exact mode_scan hnext _ _

/-- No triple-quoted literal is open. -/
def Mode.Untripled (mode : Mode) : Prop :=
  ∀ q, mode ≠ .tripled q

/-- How the scan goes on at the start of a text, whatever follows that starts with no quote. -/
inductive Move (mode : Mode) : List Char → Prop where
  /-- A backslash at the end of the text escapes nothing. -/
  | dangling {q : Char} (h : mode = .quoted q) : Move mode ['\\']
  /-- A triple-quoted literal begins. -/
  | enter {q : Char} {rest : List Char} (hmode : mode = .code) (hquote : isQuote q = true)
      (h : ∀ more, Decided ([q, q, q] ++ rest) more →
        Goes .code [q, q, q] (.tripled q) (.enter q) (rest ++ more)) : Move mode ([q, q, q] ++ rest)
  /-- A triple-quoted literal goes on. -/
  | hold {q c : Char} {rest : List Char} (hmode : mode = .tripled q)
      (h : ∀ more, Decided ([c] ++ rest) more →
        Goes (.tripled q) [c] (.tripled q) (.hold c) (rest ++ more)) : Move mode ([c] ++ rest)
  /-- Anything else changes nothing but the state. -/
  | pass {taken rest : List Char} {next : Mode} (hne : taken ≠ []) (hnext : next.WellQuoted)
      (hclosed : next.Untripled)
      (h : ∀ more, Decided (taken ++ rest) more → Goes mode taken next id (rest ++ more)) :
      Move mode (taken ++ rest)

theorem untripled_code : Mode.code.Untripled :=
  fun _ h => by cases h

theorem untripled_comment : Mode.comment.Untripled :=
  fun _ h => by cases h

theorem untripled_quoted (q : Char) : (Mode.quoted q).Untripled :=
  fun _ h => by cases h

theorem move_code (c : Char) (text : List Char) : Move .code (c :: text) := by
  -- Outside of literals and comments a delimiter, a number sign or any other character comes next.
  -- Only the first of these is read with more than one character.
  cases hopen : Delimiter.open? (c :: text) with
  | some opened =>
    obtain ⟨d, rest⟩ := opened
    obtain ⟨hquote, htext⟩ := eq_append_of_open? hopen
    -- More text does not turn a simple delimiter into a triple one.
    have hopened : ∀ more, Decided (d.text ++ rest) more →
        Goes .code d.text d.mode d.enter (rest ++ more) := by
      intro more hmore
      have hlong := open?_append hopen (htext ▸ hmore)
      rw [htext, List.append_assoc] at hlong
      exact ⟨after_eq_of_scan (wellQuoted_mode hquote) (scan_open hlong 0), extents_open hlong⟩
    rw [htext]
    obtain ⟨q, _ | _⟩ := d
    · exact .pass (List.cons_ne_nil q []) (@wellQuoted_mode ⟨q, false⟩ hquote) (untripled_quoted q)
        hopened
    · exact .enter rfl hquote hopened
  | none =>
    have hquote := isQuote_of_open? hopen
    by_cases hhash : c = '#'
    · subst hhash
      refine .pass (List.cons_ne_nil '#' []) wellQuoted_comment untripled_comment fun more _ => ⟨?_, ?_⟩
      · exact after_eq_of_scan wellQuoted_comment (scan_hash 0 (text ++ more))
      · exact extents_other hquote (text ++ more)
    · refine .pass (List.cons_ne_nil c []) wellQuoted_code untripled_code fun more _ => ⟨?_, ?_⟩
      · have hkept := congrArg Scan.mode (@scan_other false c (by simp) hhash hquote 0 (text ++ more))
        exact hkept.trans (mode_scan wellQuoted_code _ _)
      · exact (extents_other hquote (text ++ more)).trans (congrArg (extents · _) (if_neg hhash))

theorem move_comment (c : Char) (text : List Char) : Move .comment (c :: text) := by
  by_cases hc : c = '\n'
  · subst hc
    refine .pass (List.cons_ne_nil '\n' []) wellQuoted_code untripled_code fun more _ => ⟨?_, rfl⟩
    have hkept := congrArg Scan.mode
      (@scan_other true '\n' (fun _ => rfl) (by decide) rfl 0 (text ++ more))
    exact hkept.trans (mode_scan wellQuoted_code _ _)
  · refine .pass (List.cons_ne_nil c []) wellQuoted_comment untripled_comment fun more _ => ⟨?_, ?_⟩
    · exact after_eq_of_scan wellQuoted_comment (scan_comment hc 0 (text ++ more))
    · show extents .comment (c :: (text ++ more)) = _
      rw [extents, if_neg hc]
      rfl

theorem move_literal (hquote : isQuote d.quote = true) (c : Char) (text : List Char) :
    Move d.mode (c :: text) := by
  -- A literal is closed here, it goes on behind an escaped character, or it goes on behind this
  -- one. Only what stands in triple quotes is held.
  cases hclose : d.close? (c :: text) with
  | some rest =>
    rw [eq_append_of_close? hclose]
    refine .pass (List.ne_nil_of_length_pos d.length_text_pos) wellQuoted_code untripled_code
      fun more _ => ⟨?_, ?_⟩
    · exact after_eq_of_scan wellQuoted_code (scan_mode_close hquote 0 (rest ++ more))
    · exact extents_close hquote (rest ++ more)
  | none =>
    by_cases hslash : c = '\\' ∧ d.triple = false
    · obtain ⟨rfl, hsimple⟩ := hslash
      cases text with
      | nil => exact .dangling (by rw [Delimiter.mode, hsimple, if_neg Bool.false_ne_true])
      | cons e text =>
        -- In triple quotes a backslash is a character like any other, so the literal is a simple
        -- one.
        have hclosed : d.mode.Untripled := by
          rw [Delimiter.mode, hsimple, if_neg Bool.false_ne_true]
          exact untripled_quoted _
        refine @Move.pass _ ['\\', e] text _ (by simp) (wellQuoted_mode hquote) hclosed
          fun more _ => ⟨?_, ?_⟩
        · exact after_eq_of_scan (wellQuoted_mode hquote) (scan_mode_escape hsimple 0 e (text ++ more))
        · exact extents_escape hsimple e (text ++ more)
    · have hheld : ∀ more, Decided (c :: text) more →
          Goes d.mode [c] d.mode (d.hold c) (text ++ more) := by
        -- A closing delimiter does not reach from this text into what stands behind it.
        intro more hmore
        have hlong := close?_eq_none_append hquote hclose hmore
        exact ⟨after_eq_of_scan (wellQuoted_mode hquote) (scan_mode_skip hlong hslash 0),
          extents_hold hlong hslash⟩
      obtain ⟨q, _ | _⟩ := d
      · exact @Move.pass _ [c] text _ (by simp) (@wellQuoted_mode ⟨q, false⟩ hquote)
          (untripled_quoted q) hheld
      · exact .hold rfl hheld

theorem move (hmode : mode.WellQuoted) (c : Char) (text : List Char) : Move mode (c :: text) := by
  cases mode with
  | code => exact move_code c text
  | comment => exact move_comment c text
  | quoted q => exact @move_literal ⟨q, false⟩ (hmode q rfl) c text
  | tripled q => exact @move_literal ⟨q, true⟩ (hmode q rfl) c text

/-- What holds at the end of a text, and is kept by the steps in front of it, holds of every text. -/
theorem extents_induction {motive : Mode → List Char → Prop} (nil : ∀ mode, motive mode [])
    (dangling : ∀ q, isQuote q = true → motive (.quoted q) ['\\'])
    (enter : ∀ q rest, isQuote q = true →
      (∀ more, Decided ([q, q, q] ++ rest) more →
        Goes .code [q, q, q] (.tripled q) (.enter q) (rest ++ more)) →
      motive (.tripled q) rest → motive .code ([q, q, q] ++ rest))
    (hold : ∀ q c rest, isQuote q = true →
      (∀ more, Decided ([c] ++ rest) more →
        Goes (.tripled q) [c] (.tripled q) (.hold c) (rest ++ more)) →
      motive (.tripled q) rest → motive (.tripled q) ([c] ++ rest))
    (pass : ∀ mode taken next rest, next.WellQuoted → next.Untripled →
      (∀ more, Decided (taken ++ rest) more → Goes mode taken next id (rest ++ more)) →
      motive next rest → motive mode (taken ++ rest))
    (hmode : mode.WellQuoted) (text : List Char) : motive mode text := by
  -- A step may pass over several characters, so the induction is on the length.
  induction hlength : text.length using Nat.strongRecOn generalizing mode text with
  | ind length ih =>
    subst hlength
    cases text with
    | nil => exact nil mode
    | cons c text =>
      have hmove := move hmode c text
      generalize c :: text = whole at hmove ih
      cases hmove with
      | dangling h =>
        subst h
        exact dangling _ (hmode _ rfl)
      | @enter q rest h hquote hgoes =>
        subst h
        have hlength : rest.length < ([q, q, q] ++ rest).length := by
          simp only [List.length_append, List.length_cons]
          omega
        exact enter q rest hquote hgoes
          (ih _ hlength (@wellQuoted_mode ⟨q, true⟩ hquote) _ rfl)
      | @hold q c rest h hgoes =>
        subst h
        exact hold q c rest (hmode q rfl) hgoes (ih _ (Nat.lt_succ_self _) hmode _ rfl)
      | pass hne hnext hclosed hgoes =>
        refine pass _ _ _ _ hnext hclosed hgoes (ih _ ?_ hnext _ rfl)
        rw [List.length_append]
        exact Nat.lt_add_of_pos_left (List.length_pos_iff.mpr hne)

/-! ## More text behind -/

/-- A text that neither closes nor opens a literal with its first character, nor escapes it. -/
def Calm (text : List Char) : Prop :=
  ∀ c ∈ text.head?, isQuote c = false ∧ c ≠ '\\'

theorem Calm.decided (h : Calm more) (text : List Char) : Decided text more :=
  .inl fun c hc => (h c hc).1

theorem calm_nil : Calm [] :=
  fun _ h => by cases h

theorem calm_cons (hquote : isQuote c = false) (hslash : c ≠ '\\') (rest : List Char) :
    Calm (c :: rest) := by
  intro d hd
  obtain rfl : c = d := by simpa using hd
  exact ⟨hquote, hslash⟩

theorem close?_calm (hquote : isQuote d.quote = true) (h : Calm (c :: rest)) :
    d.close? (c :: rest) = none := by
  rw [Option.eq_none_iff_forall_ne_some]
  intro after hclose
  have hmem : c ∈ d.text := by
    have hhead := congrArg List.head? (eq_append_of_close? hclose)
    obtain ⟨q, _ | _⟩ := d <;> simpa [Delimiter.text] using hhead
  have hother := (h c rfl).1
  rw [eq_of_mem_delimiter hmem, hquote] at hother
  cases hother

/-- A backslash in front of a text that starts calmly makes no difference to what follows. -/
theorem goes_dangling (hquote : isQuote q = true) (hmore : Calm more) :
    Goes (.quoted q) ['\\'] (.quoted q) id more := by
  have hwell : (Mode.quoted q).WellQuoted := @wellQuoted_mode ⟨q, false⟩ hquote
  cases more with
  | nil => exact ⟨by simp [Mode.after, scan], by simp [extents]⟩
  | cons c rest =>
    have hslash : ¬(c = '\\' ∧ Delimiter.triple ⟨q, false⟩ = false) := fun h => (hmore c rfl).2 h.1
    have hclose : Delimiter.close? ⟨q, false⟩ (c :: rest) = none := close?_calm hquote hmore
    have hskip : (Mode.quoted q).after ([c] ++ rest) = (Mode.quoted q).after rest :=
      after_eq_of_scan hwell (scan_mode_skip hclose hslash 0)
    have hescape : (Mode.quoted q).after (['\\', c] ++ rest) = (Mode.quoted q).after rest :=
      after_eq_of_scan hwell (@scan_mode_escape ⟨q, false⟩ rfl 0 c rest)
    refine ⟨hescape.trans hskip.symm, ?_⟩
    exact (@extents_escape ⟨q, false⟩ rfl c rest).trans (extents_hold hclose hslash).symm

theorem goes_here {taken : List Char} {next : Mode} {put : Extents → Extents}
    (h : ∀ more, Decided text more → Goes mode taken next put (rest ++ more)) :
    Goes mode taken next put rest := by
  have hhere := h [] (decided_nil text)
  rwa [List.append_nil] at hhere

/-- The state behind two texts is that behind the second one from the state behind the first one on. -/
theorem after_append (hmode : mode.WellQuoted) (hmore : Calm more) (text : List Char) :
    mode.after (text ++ more) = (mode.after text).after more := by
  -- Every step goes on as it does without the text behind, since that text decides nothing.
  have hstep : ∀ {mode next : Mode} {taken rest : List Char} {put : Extents → Extents},
      (∀ more, Decided (taken ++ rest) more → Goes mode taken next put (rest ++ more)) →
      next.after (rest ++ more) = (next.after rest).after more →
        mode.after (taken ++ rest ++ more) = (mode.after (taken ++ rest)).after more := by
    intro mode next taken rest put hgoes ih
    rw [List.append_assoc, (hgoes more (hmore.decided _)).after_eq, (goes_here hgoes).after_eq, ih]
  refine extents_induction (motive := fun mode text =>
    mode.after (text ++ more) = (mode.after text).after more)
    ?nil ?dangling ?enter ?hold ?pass hmode text
  case nil => exact fun _ => rfl
  case dangling =>
    intro q hquote
    rw [(goes_dangling hquote hmore).after_eq]
    simp [Mode.after, scan]
  case enter => exact fun q rest _ hgoes ih => hstep hgoes ih
  case hold => exact fun q c rest _ hgoes ih => hstep hgoes ih
  case pass => exact fun mode taken next rest _ _ hgoes ih => hstep hgoes ih

/-- Nothing of a text belongs to a literal in front of it if none is open there. -/
theorem inner_of_untripled (hmode : mode.WellQuoted) (text : List Char) :
    mode.Untripled → (extents mode text).inner = [] := by
  refine extents_induction (motive := fun mode text => mode.Untripled → (extents mode text).inner = [])
    ?nil ?dangling ?enter ?hold ?pass hmode text
  case nil => exact fun _ _ => rfl
  case dangling => exact fun _ _ _ => by simp [extents, Extents.none]
  case enter =>
    intro q rest _ hgoes _ _
    rw [(goes_here hgoes).extents_eq]
    rfl
  case hold => exact fun q c rest _ _ _ hclosed => absurd rfl (hclosed q)
  case pass =>
    intro mode taken next rest _ hnext hgoes ih _
    rw [(goes_here hgoes).extents_eq]
    exact ih hnext

/-- What is in triple quotes on a text that closes all of them does not change with more text behind. -/
theorem extents_append (hmode : mode.WellQuoted) (hmore : Calm more) (text : List Char) :
    (mode.after text).Untripled → extents mode (text ++ more) =
      ⟨(extents mode text).inner,
        (extents mode text).begun ++ (extents (mode.after text) more).begun⟩ := by
  -- Each way in which a scan goes on does not look at what stands far behind. What the text leaves
  -- open would gain by a longer one, but here it leaves nothing in triple quotes.
  refine extents_induction (motive := fun mode text => mode.WellQuoted →
    (mode.after text).Untripled → extents mode (text ++ more) = ⟨(extents mode text).inner,
      (extents mode text).begun ++ (extents (mode.after text) more).begun⟩)
    ?nil ?dangling ?enter ?hold ?pass hmode text hmode
  case nil =>
    intro mode hmode hclosed
    exact congrArg (Extents.mk · _) (inner_of_untripled hmode more hclosed)
  case dangling =>
    -- A backslash at the end escapes the first character of the text behind, with which no literal
    -- begins or ends in any case.
    intro q hquote hmode hclosed
    have hafter : (Mode.quoted q).after ['\\'] = .quoted q := by simp [Mode.after, scan]
    have hnothing : extents (.quoted q) ['\\'] = .none := by simp [extents]
    rw [(goes_dangling hquote hmore).extents_eq, hafter, hnothing]
    exact congrArg (Extents.mk · _) (inner_of_untripled hmode more (untripled_quoted q))
  case enter =>
    intro q rest hquote hgoes ih _ hclosed
    rw [(goes_here hgoes).after_eq] at hclosed ⊢
    rw [List.append_assoc, (hgoes more (hmore.decided _)).extents_eq, (goes_here hgoes).extents_eq,
      ih (@wellQuoted_mode ⟨q, true⟩ hquote) hclosed]
    rfl
  case hold =>
    intro q c rest _ hgoes ih hmode hclosed
    rw [(goes_here hgoes).after_eq] at hclosed ⊢
    rw [List.append_assoc, (hgoes more (hmore.decided _)).extents_eq, (goes_here hgoes).extents_eq,
      ih hmode hclosed]
    rfl
  case pass =>
    intro mode taken next rest hnext _ hgoes ih _ hclosed
    rw [(goes_here hgoes).after_eq] at hclosed ⊢
    rw [List.append_assoc, (hgoes more (hmore.decided _)).extents_eq, (goes_here hgoes).extents_eq]
    exact ih hnext hclosed

/-! ## Blanks and line feeds -/

variable {blanks : List Char}

theorem calm_of_isBlank (h : isBlank c = true) (rest : List Char) : Calm (c :: rest) :=
  calm_cons (ne_of_isBlank h).2.2 (ne_of_isBlank h).1 rest

theorem calm_blanks_append (hblank : ∀ c ∈ blanks, isBlank c = true) (hmore : Calm more) :
    Calm (blanks ++ more) := by
  cases blanks with
  | nil => exact hmore
  | cons c blanks => exact calm_of_isBlank (hblank c List.mem_cons_self) _

theorem extents_mode_blank (hquote : isQuote d.quote = true) (hblank : isBlank c = true)
    (rest : List Char) : extents d.mode (c :: rest) = d.hold c (extents d.mode rest) :=
  extents_hold (close?_calm hquote (calm_of_isBlank hblank rest)) fun h => (ne_of_isBlank hblank).1 h.1

/-- In a literal in triple quotes blanks belong to it. -/
theorem extents_tripled_blanks (hquote : isQuote q = true) (hblank : ∀ c ∈ blanks, isBlank c = true)
    (text : List Char) : extents (.tripled q) (blanks ++ text) =
      ⟨blanks ++ (extents (.tripled q) text).inner, (extents (.tripled q) text).begun⟩ := by
  induction blanks with
  | nil => rfl
  | cons c blanks ih =>
    rw [List.forall_mem_cons] at hblank
    have hheld : extents (.tripled q) (c :: (blanks ++ text)) =
        (extents (.tripled q) (blanks ++ text)).hold c :=
      @extents_mode_blank c ⟨q, true⟩ hquote hblank.1 _
    rw [List.cons_append, hheld, ih hblank.2]
    rfl

/-- Elsewhere blanks on a line make no difference. -/
theorem extents_blanks (hmode : mode.WellQuoted) (hclosed : mode.Untripled)
    (hblank : ∀ c ∈ blanks, isBlank c = true) (hline : '\n' ∉ blanks) (text : List Char) :
    extents mode (blanks ++ text) = extents mode text := by
  induction blanks with
  | nil => rfl
  | cons c blanks ih =>
    rw [List.forall_mem_cons] at hblank
    rw [List.mem_cons, not_or] at hline
    rw [← ih hblank.2 hline.2, List.cons_append]
    obtain ⟨-, hhash, hquote⟩ := ne_of_isBlank hblank.1
    cases mode with
    | code => rw [extents_other hquote, if_neg hhash]
    | comment => rw [extents, if_neg (Ne.symm hline.1)]
    | quoted q => exact @extents_mode_blank c ⟨q, false⟩ (hmode q rfl) hblank.1 _
    | tripled q => exact absurd rfl (hclosed q)

/-- The state behind a line does not change with the blanks around it. -/
theorem after_blanks_around {front back : List Char} (hmode : mode.WellQuoted)
    (hfront : ∀ c ∈ front, isBlank c = true) (hback : ∀ c ∈ back, isBlank c = true)
    (hline : '\n' ∉ front ++ (text ++ back)) :
    mode.after (front ++ (text ++ back)) = mode.after text := by
  rw [List.mem_append, List.mem_append, not_or, not_or] at hline
  rw [Mode.after, mode_scan_blanks_append hmode hfront hline.1,
    mode_scan_append_blanks hmode hback hline.2.2, Mode.after]

/-- The state at the start of a line in front of which a triple-quoted literal may be open. -/
def Mode.inside : Option Char → Mode
  | some q => tripled q
  | none => code

theorem Mode.untripled_iff : mode.Untripled ↔ mode.tripled? = none := by
  cases mode with
  | tripled q => exact ⟨fun h => absurd rfl (h q), fun h => by cases h⟩
  | code => exact ⟨fun _ => rfl, fun _ => untripled_code⟩
  | comment => exact ⟨fun _ => rfl, fun _ => untripled_comment⟩
  | quoted q => exact ⟨fun _ => rfl, fun _ => untripled_quoted q⟩

instance (mode : Mode) : Decidable mode.Untripled :=
  decidable_of_iff _ Mode.untripled_iff.symm

theorem wellQuoted_inside {quote? : Option Char} (h : ∀ q ∈ quote?, isQuote q = true) :
    (Mode.inside quote?).WellQuoted := by
  cases quote? with
  | none => exact wellQuoted_code
  | some q => exact @wellQuoted_mode ⟨q, true⟩ (h q rfl)

theorem wellQuoted_after (hmode : mode.WellQuoted) (text : List Char) : (mode.after text).WellQuoted :=
  wellQuoted_mode_scan hmode 0

/-- No literal in simple quotes is open. -/
def Mode.Unquoted (mode : Mode) : Prop :=
  ∀ q, mode ≠ .quoted q

theorem Mode.unquoted_iff : mode.Unquoted ↔ mode.quote? = mode.tripled? := by
  cases mode <;> simp [Mode.Unquoted, Mode.quote?, Mode.tripled?]

instance (mode : Mode) : Decidable mode.Unquoted :=
  decidable_of_iff _ Mode.unquoted_iff.symm

/-- The state behind a line feed, which ends comments. -/
def Mode.nextLine : Mode → Mode
  | comment => code
  | mode => mode

theorem Mode.nextLine_eq_inside (h : mode.Unquoted) : mode.nextLine = .inside mode.tripled? := by
  cases mode with
  | quoted q => exact absurd rfl (h q)
  | code | comment | tripled q => rfl

theorem wellQuoted_nextLine (hmode : mode.WellQuoted) : mode.nextLine.WellQuoted := by
  cases mode with
  | comment => exact wellQuoted_code
  | code | quoted q | tripled q => exact hmode

theorem after_lineFeed (hmode : mode.WellQuoted) (rest : List Char) :
    mode.after ('\n' :: rest) = mode.nextLine.after rest := by
  cases mode with
  | code =>
    have hkept := congrArg Scan.mode (@scan_other false '\n' (by simp) (by decide) rfl 0 rest)
    exact hkept.trans (mode_scan wellQuoted_code _ _)
  | comment =>
    have hkept := congrArg Scan.mode (@scan_other true '\n' (by simp) (by decide) rfl 0 rest)
    exact hkept.trans (mode_scan wellQuoted_code _ _)
  | quoted q =>
    have hpassed := congrArg Scan.mode (@scan_mode_blank ⟨q, false⟩ '\n' (hmode q rfl) rfl 0 rest)
    exact hpassed.trans (mode_scan hmode _ _)
  | tripled q =>
    have hpassed := congrArg Scan.mode (@scan_mode_blank ⟨q, true⟩ '\n' (hmode q rfl) rfl 0 rest)
    exact hpassed.trans (mode_scan hmode _ _)

/-- A comment goes on to the end of its line, whatever stands in it. -/
theorem extents_comment (hline : '\n' ∉ text) (more : List Char) :
    extents .comment (text ++ more) = extents .comment more := by
  induction text with
  | nil => rfl
  | cons c text ih =>
    rw [List.mem_cons, not_or] at hline
    rw [List.cons_append, extents, if_neg (Ne.symm hline.1), ih hline.2]

theorem extents_lineFeed (hmode : mode.WellQuoted) (hclosed : mode.Untripled) (rest : List Char) :
    extents mode ('\n' :: rest) = extents mode.nextLine rest := by
  cases mode with
  | code => exact extents_other rfl rest
  | comment => rfl
  | quoted q => exact @extents_mode_blank '\n' ⟨q, false⟩ (hmode q rfl) rfl rest
  | tripled q => exact absurd rfl (hclosed q)

/-- The state behind a line and what follows it. -/
theorem after_line (hmode : mode.WellQuoted) (line rest : List Char) :
    mode.after (line ++ '\n' :: rest) = (mode.after line).nextLine.after rest := by
  rw [after_append hmode (calm_of_isBlank rfl rest), after_lineFeed (wellQuoted_after hmode line)]

/-- Literals in simple quotes are closed on their lines. -/
def ClosedOnLines (mode : Mode) (text : List Char) : Prop :=
  ∀ above below, text = above ++ '\n' :: below → (mode.after above).Unquoted

theorem closedOnLines_iff : ClosedOnLines mode text ↔
    ∀ n ∈ List.range text.length, text[n]? = some '\n' → (mode.after (text.take n)).Unquoted := by
  constructor
  · intro h n _ hn
    obtain ⟨hlt, hfeed⟩ := List.getElem?_eq_some_iff.mp hn
    refine h (text.take n) (text.drop (n + 1)) ?_
    rw [← hfeed, List.getElem_cons_drop, List.take_append_drop]
  · rintro h above below rfl
    have habove := h above.length (by simp) (by simp)
    rwa [List.take_left] at habove

instance (mode : Mode) (text : List Char) : Decidable (ClosedOnLines mode text) :=
  decidable_of_iff _ closedOnLines_iff.symm

theorem ClosedOnLines.left (h : ClosedOnLines mode (text ++ more)) : ClosedOnLines mode text := by
  rintro above below rfl
  exact h above (below ++ more) (by rw [List.append_assoc, List.cons_append])

theorem ClosedOnLines.here (h : ClosedOnLines mode (text ++ '\n' :: more)) :
    (mode.after text).Unquoted :=
  h text more rfl

theorem ClosedOnLines.below (hmode : mode.WellQuoted)
    (h : ClosedOnLines mode (text ++ '\n' :: more)) :
    ClosedOnLines (mode.after text).nextLine more := by
  rintro above below rfl
  rw [← after_line hmode]
  exact h (text ++ '\n' :: above) below (by rw [List.append_assoc, List.cons_append])

end Cookbook.Text
