import Cookbook.Registration.Items

/-!
# Two readings of text literals

The grammar and the scan for structural characters read literals on their own. They differ in one
point: in triple quotes the scan takes no notice of backslashes. `scanLiteral?` says what the scan
takes for a literal, `isTorn` which literals it leaves before their end.

## Main results

* `scan_literal`: the scan passes over what `scanLiteral?` takes.
* `scanLiteral?_eq_some_iff`: that is the whole literal exactly if the literal is not torn.
-/

namespace Cookbook.Text

/-! ## What the scan takes for a literal -/

/-- What the scan takes of a literal after its opening delimiter, and what follows. -/
def scanBody (d : Delimiter) : List Char → Option (List Char × List Char)
  | [] => none
  | c :: rest =>
    match d.close? (c :: rest) with
    | some after => some (d.text, after)
    | none =>
      if c = '\\' ∧ d.triple = false then
        match rest with
        | [] => none
        | e :: rest => keep [c, e] (scanBody d rest)
      else keep [c] (scanBody d rest)

/-- What the scan takes for the literal at the start of a text, and what follows. -/
def scanLiteral? (text : List Char) : Option (List Char × List Char) :=
  match Delimiter.open? text with
  | some (d, rest) => keep d.text (scanBody d rest)
  | none => none

/-- The state of the scan inside a literal. -/
def Delimiter.mode (d : Delimiter) : Mode :=
  if d.triple then .tripled d.quote else .quoted d.quote

/-- Whether a backslash escapes the first of three quotes. -/
def escapesClose (q : Char) : List Char → Bool
  | [] => false
  | '\\' :: rest =>
    match rest with
    | [] => false
    | c :: rest => (c == q && [q, q].isPrefixOf rest) || escapesClose q rest
  | _ :: rest => escapesClose q rest

/-- Whether a literal in triple quotes holds an escaped quote with two quotes after it. -/
def isTorn (text : List Char) : Bool :=
  match Delimiter.open? text with
  | some (d, body) => d.triple && escapesClose d.quote body
  | none => false

variable {d : Delimiter} {q c : Char} {rest : List Char}

theorem scanBody_close {after : List Char} (hclose : d.close? (c :: rest) = some after) :
    scanBody d (c :: rest) = some (d.text, after) := by
  rw [scanBody.eq_def]
  simp only [hclose]

theorem scanBody_escape {e : Char} (hclose : d.close? ('\\' :: e :: rest) = none)
    (hsimple : d.triple = false) :
    scanBody d ('\\' :: e :: rest) = keep ['\\', e] (scanBody d rest) := by
  rw [scanBody.eq_def]
  simp only [hclose, hsimple, and_self, if_true]

theorem scanBody_skip (hclose : d.close? (c :: rest) = none)
    (hslash : ¬(c = '\\' ∧ d.triple = false)) :
    scanBody d (c :: rest) = keep [c] (scanBody d rest) := by
  rw [scanBody.eq_def]
  simp only [hclose, hslash, if_false]

/-! ## Quotes -/

theorem ne_backslash_of_isQuote (hq : isQuote q = true) : q ≠ '\\' := by
  rintro rfl
  revert hq
  decide

theorem close?_text_append (d : Delimiter) (rest : List Char) :
    d.close? (d.text ++ rest) = some rest := by
  obtain ⟨q, triple⟩ := d
  cases triple <;> simp [Delimiter.close?, Delimiter.text]

/-- Simple quotes close at the next quote. -/
theorem close?_simple (c : Char) (rest : List Char) :
    Delimiter.close? ⟨q, false⟩ (c :: rest) = if c = q then some rest else none := by
  by_cases h : q = c
  · simp [Delimiter.close?, Delimiter.text, h]
  · simp [Delimiter.close?, Delimiter.text, h, Ne.symm h]

theorem close?_triple_eq_some_iff {text after : List Char} :
    Delimiter.close? ⟨q, true⟩ text = some after ↔ text = q :: q :: q :: after := by
  constructor
  · exact fun h => eq_append_of_close? h
  · rintro rfl
    exact close?_text_append ⟨q, true⟩ after

/-! ## The scan inside a literal -/

theorem scan_mode_close (hq : isQuote d.quote = true) (offset : Nat) (rest : List Char) :
    scan d.mode offset (d.text ++ rest) = scan .code (offset + byteSize d.text) rest := by
  obtain ⟨q, triple⟩ := d
  have hslash : q ≠ '\\' := ne_backslash_of_isQuote hq
  cases triple with
  | false =>
    show scan (.quoted q) offset (q :: rest) = _
    rw [scan.eq_def]
    simp [Delimiter.text, hslash]
  | true => simp [Delimiter.mode, Delimiter.text, scan, Nat.add_assoc]

/-- In simple quotes the scan skips what a backslash escapes. -/
theorem scan_mode_escape (hsimple : d.triple = false) (offset : Nat) (e : Char)
    (rest : List Char) :
    scan d.mode offset ('\\' :: e :: rest) =
      scan d.mode (offset + byteSize ['\\', e]) rest := by
  simp [Delimiter.mode, hsimple, scan, Nat.add_assoc]

/-- Every other character is taken on its own. -/
theorem scan_mode_skip {c : Char} {rest : List Char} (hclose : d.close? (c :: rest) = none)
    (hslash : ¬(c = '\\' ∧ d.triple = false)) (offset : Nat) :
    scan d.mode offset (c :: rest) = scan d.mode (offset + byteSize [c]) rest := by
  obtain ⟨q, triple⟩ := d
  cases triple with
  | false =>
    have hne : c ≠ '\\' := fun h => hslash ⟨h, rfl⟩
    have hother : c ≠ q := by
      rintro rfl
      simp [close?_simple] at hclose
    show scan (.quoted q) offset (c :: rest) = scan (.quoted q) (offset + c.utf8Size) rest
    rw [scan.eq_def]
    simp [hne, hother]
  | true =>
    -- Three quotes close the literal, so there are too few characters left or one of the next three
    -- is another.
    match rest with
    | a :: b :: rest =>
      have hother : ¬(c = q ∧ a = q ∧ b = q) := by
        rintro ⟨rfl, rfl, rfl⟩
        rw [close?_triple_eq_some_iff.mpr rfl] at hclose
        cases hclose
      simp [Delimiter.mode, scan, hother]
    | [a] => simp [Delimiter.mode, scan]
    | [] => simp [Delimiter.mode, scan]

/-- Inside a literal, the scan goes on after what it takes. -/
theorem scan_mode {text taken rest : List Char} (hq : isQuote d.quote = true)
    (h : scanBody d text = some (taken, rest)) (offset : Nat) :
    scan d.mode offset text = scan .code (offset + byteSize taken) rest := by
  fun_induction scanBody d text generalizing taken offset with
  | case1 => cases h
  | case2 c text after hclose =>
    cases h
    rw [eq_append_of_close? hclose, scan_mode_close hq]
  | case3 => cases h
  | case4 c hescape e text hclose ih =>
    obtain ⟨inner, hinner, rfl⟩ := keep_eq_some h
    rw [hescape.1, scan_mode_escape hescape.2, ih hinner, byteSize_append, Nat.add_assoc]
  | case5 c text hclose hslash ih =>
    obtain ⟨inner, hinner, rfl⟩ := keep_eq_some h
    rw [scan_mode_skip hclose hslash, ih hinner, byteSize_append, Nat.add_assoc]

/-- The opening delimiter puts the scan into the literal. -/
theorem scan_open {text rest : List Char} (h : Delimiter.open? text = some (d, rest))
    (offset : Nat) : scan .code offset text = scan d.mode (offset + byteSize d.text) rest := by
  -- The scan and the grammar look at the same three characters.
  unfold Delimiter.open? at h
  split at h
  · cases h
  · next q after =>
    split at h
    · next hq =>
      split at h
      · next a b after' =>
        split at h
        · next hab =>
          cases h
          simp [scan, hq, hab, Delimiter.mode, Delimiter.text, Nat.add_assoc]
        · next hab =>
          cases h
          simp [scan, hq, hab, Delimiter.mode, Delimiter.text]
      · next hshort =>
        cases h
        simp only [scan, hq, if_true]
        rfl
    · cases h

/-- The scan goes on after what it takes for a literal. -/
theorem scan_literal {text taken rest : List Char}
    (h : scanLiteral? text = some (taken, rest)) (offset : Nat) :
    scan .code offset text = scan .code (offset + byteSize taken) rest := by
  unfold scanLiteral? at h
  split at h
  · next d body hopen =>
    -- The scan goes into the literal, and comes out where what it takes ends.
    obtain ⟨inner, hinner, rfl⟩ := keep_eq_some h
    rw [scan_open hopen, scan_mode (eq_append_of_open? hopen).1 hinner, byteSize_append,
      Nat.add_assoc]
  · cases h

/-! ## The literal of the grammar -/

theorem keep_eq_some_iff {text value rest : List Char} {taken : Option (List Char × List Char)} :
    keep text taken = some (text ++ value, rest) ↔ taken = some (value, rest) := by
  cases taken with
  | none => simp [keep]
  | some taken => simp [keep, Prod.ext_iff]

theorem keep_eq_none_iff {text : List Char} {taken : Option (List Char × List Char)} :
    keep text taken = none ↔ taken = none := by
  cases taken with
  | none => simp [keep]
  | some taken => simp [keep]

theorem map_eq_done {α β : Type} {f : α → β} {outcome : Outcome α} {value : β} {rest : List Char}
    (h : outcome.map f = .done value rest) :
    ∃ first, outcome = .done first rest ∧ value = f first := by
  cases outcome with
  | done first rest' => cases h; exact ⟨first, rfl, rfl⟩
  | stuck rest' => cases h

/-- What a backslash escapes is taken by the grammar in any quotes. -/
theorem close?_backslash (hq : isQuote d.quote = true) (rest : List Char) :
    d.close? ('\\' :: rest) = none := by
  cases h : d.close? ('\\' :: rest) with
  | none => rfl
  | some after =>
    obtain ⟨q, triple⟩ := d
    have htext := eq_append_of_close? h
    cases triple <;> exact absurd (List.cons.inj htext).1.symm (ne_backslash_of_isQuote hq)

theorem escapesClose_cons {c : Char} (hc : c ≠ '\\') (q : Char) (rest : List Char) :
    escapesClose q (c :: rest) = escapesClose q rest :=
  escapesClose.eq_4 q c rest fun h => hc h

theorem escapesClose_text (hq : isQuote d.quote = true) :
    (d.triple && escapesClose d.quote d.text) = false := by
  obtain ⟨q, triple⟩ := d
  have hslash : q ≠ '\\' := ne_backslash_of_isQuote hq
  cases triple with
  | false => rfl
  | true =>
    show escapesClose q [q, q, q] = false
    rw [escapesClose_cons hslash, escapesClose_cons hslash, escapesClose_cons hslash]
    rfl

/-- A backslash escapes the first of three quotes exactly if the scan finds them there. -/
theorem escapes_iff {c : Char} {tail rest : List Char} (htail : 2 ≤ tail.length) :
    (c == q && [q, q].isPrefixOf tail) = true ↔
      ∃ after, Delimiter.close? ⟨q, true⟩ (c :: (tail ++ rest)) = some after := by
  match tail with
  | a :: b :: tail =>
    simp only [close?_triple_eq_some_iff, List.isPrefixOf, Bool.and_eq_true, beq_iff_eq, and_true,
      List.cons_append, List.cons.injEq]
    constructor
    · rintro ⟨rfl, rfl, rfl⟩
      exact ⟨tail ++ rest, rfl, rfl, rfl, rfl⟩
    · rintro ⟨_, rfl, rfl, rfl, -⟩
      exact ⟨rfl, rfl, rfl⟩

/-- In triple quotes the scan takes an escaped character like any other, unless three quotes start
there. -/
theorem scanBody_escaped_iff (hq : isQuote q = true) {tail : List Char} (htail : 3 ≤ tail.length) :
    scanBody ⟨q, true⟩ ('\\' :: c :: (tail ++ rest)) = some ('\\' :: c :: tail, rest) ↔
      (c == q && [q, q].isPrefixOf tail) = false ∧
        scanBody ⟨q, true⟩ (tail ++ rest) = some (tail, rest) := by
  have hslash : Delimiter.close? ⟨q, true⟩ ('\\' :: c :: (tail ++ rest)) = none :=
    close?_backslash hq _
  rw [scanBody_skip hslash (by simp), show '\\' :: c :: tail = ['\\'] ++ c :: tail from rfl,
    keep_eq_some_iff]
  cases hclose : Delimiter.close? ⟨q, true⟩ (c :: (tail ++ rest)) with
  | some after =>
    -- The scan stops at the escaped quote, but at least four characters are left to take.
    rw [(escapes_iff (Nat.le_of_succ_le htail)).mpr ⟨after, hclose⟩, scanBody_close hclose]
    refine iff_of_false ?_ (fun h => Bool.true_eq_false.mp h.1)
    intro heq
    have hlength := congrArg List.length (Prod.ext_iff.mp (Option.some.inj heq)).1
    simp only [Delimiter.text, if_true, List.length_cons, List.length_nil] at hlength
    omega
  | none =>
    have hescapes : (c == q && [q, q].isPrefixOf tail) = false := by
      rw [Bool.eq_false_iff, Ne, escapes_iff (Nat.le_of_succ_le htail), hclose]
      simp
    rw [scanBody_skip hclose (by simp), show c :: tail = [c] ++ tail from rfl, keep_eq_some_iff,
      and_iff_right hescapes]

/-- The scan takes the whole rest of a literal exactly if no backslash escapes the first of three
quotes in it. -/
theorem scanBody_eq_some_iff (hq : isQuote d.quote = true) {body value rest : List Char}
    (h : literalBody d (body ++ rest) = .done value rest) :
    scanBody d (body ++ rest) = some (body, rest) ↔
      (d.triple && escapesClose d.quote body) = false := by
  generalize htext : body ++ rest = text at h
  fun_induction literalBody d text generalizing body value with
  | case1 => cases h
  | case2 => cases h
  | case3 c after ih =>
    obtain ⟨first, hfirst, -⟩ := map_eq_done h
    obtain ⟨inner, rfl⟩ := eq_append_of_literalBody hfirst
    obtain rfl : body = '\\' :: c :: (inner ++ d.text) :=
      List.append_cancel_right (htext.trans (by simp))
    have ih := ih rfl hfirst
    obtain ⟨q, triple⟩ := d
    cases triple with
    | false =>
      -- In simple quotes the two read escapes alike.
      rw [scanBody_escape (close?_backslash hq _) rfl]
      exact keep_eq_some_iff.trans ih
    | true =>
      have htail : 3 ≤ (inner ++ Delimiter.text ⟨q, true⟩).length := by
        simp [Delimiter.text]
      rw [scanBody_escaped_iff hq htail, ih]
      exact Bool.or_eq_false_iff.symm
  | case4 c after hc rest' hclose =>
    cases h
    -- Both end at the closing delimiter, which holds no backslash.
    obtain rfl : body = d.text :=
      List.append_cancel_right (htext.trans (eq_append_of_close? hclose))
    exact iff_of_true (scanBody_close hclose) (escapesClose_text hq)
  | case5 => cases h
  | case6 c after hc hclose hline ih =>
    obtain ⟨first, hfirst, -⟩ := map_eq_done h
    obtain ⟨inner, rfl⟩ := eq_append_of_literalBody hfirst
    obtain rfl : body = c :: (inner ++ d.text) :=
      List.append_cancel_right (htext.trans (by simp))
    rw [scanBody_skip hclose fun h => hc h.1, escapesClose_cons hc, ← ih rfl hfirst]
    exact keep_eq_some_iff

/-! ## Literals on their own

A literal is read in the same way if the text ends earlier, as long as it does not end in the
literal, and if the text goes on, as long as it did not end with the literal. -/

theorem literalBody_text (hq : isQuote d.quote = true) (rest : List Char) :
    literalBody d (d.text ++ rest) = .done [] rest := by
  have hclose := close?_text_append d rest
  obtain ⟨q, triple⟩ := d
  have hslash : q ≠ '\\' := ne_backslash_of_isQuote hq
  cases triple with
  | false =>
    show literalBody _ (q :: rest) = _
    rw [literalBody.eq_4 _ _ _ fun h => hslash h,
      show Delimiter.close? _ (q :: rest) = _ from hclose]
  | true =>
    show literalBody _ (q :: q :: q :: rest) = _
    rw [literalBody.eq_4 _ _ _ fun h => hslash h,
      show Delimiter.close? _ (q :: q :: q :: rest) = _ from hclose]

/-- A closing delimiter that the text does not start with is not there in an initial part either. -/
theorem close?_truncate {text more : List Char} (h : d.close? (text ++ more) = none) :
    d.close? text = none := by
  cases hclose : d.close? text with
  | none => rfl
  | some after =>
    rw [eq_append_of_close? hclose, List.append_assoc, close?_text_append] at h
    cases h

theorem literalBody_truncate (hq : isQuote d.quote = true) {body value rest more : List Char}
    (h : literalBody d (body ++ (rest ++ more)) = .done value (rest ++ more)) :
    literalBody d (body ++ rest) = .done value rest := by
  generalize htext : body ++ (rest ++ more) = text at h
  fun_induction literalBody d text generalizing body value with
  | case1 => cases h
  | case2 => cases h
  | case3 c after ih =>
    obtain ⟨first, hfirst, rfl⟩ := map_eq_done h
    obtain ⟨inner, rfl⟩ := eq_append_of_literalBody hfirst
    obtain rfl : body = '\\' :: c :: (inner ++ d.text) :=
      List.append_cancel_right (htext.trans (by simp))
    show (literalBody d (inner ++ d.text ++ rest)).map (unescape c ++ ·) = _
    rw [ih rfl hfirst]
    rfl
  | case4 c after hc rest' hclose =>
    obtain ⟨rfl, rfl⟩ := Outcome.done.inj h
    obtain rfl : body = d.text :=
      List.append_cancel_right (htext.trans (eq_append_of_close? hclose))
    exact literalBody_text hq rest
  | case5 => cases h
  | case6 c after hc hclose hline ih =>
    obtain ⟨first, hfirst, rfl⟩ := map_eq_done h
    obtain ⟨inner, rfl⟩ := eq_append_of_literalBody hfirst
    obtain rfl : body = c :: (inner ++ d.text) :=
      List.append_cancel_right (htext.trans (by simp))
    -- The literal does not close here in the longer text, so neither does it in the shorter one.
    have hlong : d.close? (c :: (inner ++ d.text ++ rest) ++ more) = none := by
      simpa using hclose
    have hclose := close?_truncate hlong
    rw [List.cons_append, literalBody.eq_4 _ _ _ hc, hclose]
    simp only [hline, if_false]
    rw [ih rfl hfirst]
    rfl

theorem open?_truncate {body more : List Char}
    (h : Delimiter.open? (d.text ++ body ++ more) = some (d, body ++ more)) :
    Delimiter.open? (d.text ++ body) = some (d, body) := by
  have hq := (eq_append_of_open? h).1
  obtain ⟨q, triple⟩ := d
  cases triple with
  | true => simp_all [Delimiter.text, Delimiter.open?]
  | false =>
    rcases body with - | ⟨a, - | ⟨b, body⟩⟩
    · simp_all [Delimiter.text, Delimiter.open?]
    · simp_all [Delimiter.text, Delimiter.open?]
    · by_cases hab : a = q ∧ b = q
      · simp_all [Delimiter.text, Delimiter.open?]
      · simp_all [Delimiter.text, Delimiter.open?]

/-- The literal at the start of a text, as a delimiter, what the literal body reads, and the end. -/
theorem literal_append_inv {taken value rest : List Char}
    (h : literal (taken ++ rest) = .done value rest) :
    ∃ d body, isQuote d.quote = true ∧ taken = d.text ++ body ∧
      Delimiter.open? (d.text ++ body ++ rest) = some (d, body ++ rest) ∧
      literalBody d (body ++ rest) = .done value rest := by
  obtain ⟨d, body, hopen, hbody⟩ := eq_append_of_literal h
  obtain ⟨hq, htext⟩ := eq_append_of_open? hopen
  obtain rfl : taken = d.text ++ (body ++ d.text) :=
    List.append_cancel_right (htext.trans (by simp))
  exact ⟨d, body ++ d.text, hq, rfl, hopen, hbody⟩

/-- A literal is the same literal in a text that ends earlier. -/
theorem literal_truncate {taken value rest more : List Char}
    (h : literal (taken ++ (rest ++ more)) = .done value (rest ++ more)) :
    literal (taken ++ rest) = .done value rest := by
  obtain ⟨d, body, hq, rfl, hopen, hbody⟩ := literal_append_inv h
  have hopen : Delimiter.open? (d.text ++ (body ++ rest)) = some (d, body ++ rest) :=
    open?_truncate (by simpa using hopen)
  rw [literal, List.append_assoc, hopen]
  exact literalBody_truncate hq hbody

/-- A closing delimiter that the text starts with is there in a longer text too, and no other if the
text is as long as the delimiter. -/
theorem close?_append {text more : List Char} (h : d.text.length ≤ text.length) :
    d.close? (text ++ more) = (d.close? text).map (· ++ more) := by
  cases hclose : d.close? text with
  | some after =>
    rw [eq_append_of_close? hclose, List.append_assoc, close?_text_append]
    rfl
  | none =>
    cases hlong : d.close? (text ++ more) with
    | none => rfl
    | some after =>
      have hprefix : d.text <+: text := List.prefix_of_prefix_length_le
        ⟨after, (eq_append_of_close? hlong).symm⟩ (List.prefix_append text more) h
      obtain ⟨rest, rfl⟩ := hprefix
      rw [close?_text_append] at hclose
      cases hclose

/-- The body of a literal is the same in a text that goes on. -/
theorem literalBody_append {text value rest : List Char} (more : List Char)
    (h : literalBody d text = .done value rest) :
    literalBody d (text ++ more) = .done value (rest ++ more) := by
  fun_induction literalBody d text generalizing value with
  | case1 => cases h
  | case2 => cases h
  | case3 c after ih =>
    obtain ⟨first, hfirst, rfl⟩ := map_eq_done h
    show (literalBody d (after ++ more)).map (unescape c ++ ·) = _
    rw [ih hfirst]
    rfl
  | case4 c after hc rest' hclose =>
    obtain ⟨rfl, rfl⟩ := Outcome.done.inj h
    have hlong : d.close? (c :: (after ++ more)) = some (rest' ++ more) := by
      have hlength := congrArg List.length (eq_append_of_close? hclose)
      rw [List.length_append] at hlength
      rw [← List.cons_append, close?_append (by omega), hclose]
      rfl
    rw [List.cons_append, literalBody.eq_4 _ _ _ hc, hlong]
  | case5 => cases h
  | case6 c after hc hclose hline ih =>
    obtain ⟨first, hfirst, rfl⟩ := map_eq_done h
    -- The closing delimiter is still to come, so the text is long enough to tell.
    have hlong : d.close? (c :: (after ++ more)) = none := by
      obtain ⟨inner, hinner⟩ := eq_append_of_literalBody hfirst
      have hlength : d.text.length ≤ (c :: after).length := by
        rw [hinner]
        simp only [List.length_cons, List.length_append]
        omega
      rw [← List.cons_append, close?_append hlength, hclose]
      rfl
    rw [List.cons_append, literalBody.eq_4 _ _ _ hc, hlong]
    simp only [hline, if_false]
    rw [ih hfirst]
    rfl

/-- A literal is the same literal in a text that goes on, if the text did not end with it. -/
theorem literal_append {text value rest : List Char} (more : List Char)
    (h : literal text = .done value rest) (hrest : rest ≠ []) :
    literal (text ++ more) = .done value (rest ++ more) := by
  obtain ⟨d, body, hopen, hbody⟩ := eq_append_of_literal h
  have htext := (eq_append_of_open? hopen).2
  have hlong : Delimiter.open? (text ++ more) = some (d, body ++ d.text ++ rest ++ more) := by
    rw [htext] at hopen ⊢
    -- Two characters behind the first quote settle whether it is one of three.
    have hlength : 2 ≤ (body ++ d.text ++ rest).length := by
      have := d.length_text_pos
      have := List.length_pos_iff.mpr hrest
      simp only [List.length_append]
      omega
    generalize body ++ d.text ++ rest = after at hopen hlength ⊢
    match after, hlength with
    | a :: b :: after, _ =>
      obtain ⟨q, triple⟩ := d
      cases triple <;> simp_all [Delimiter.text, Delimiter.open?]
  rw [literal, hlong]
  exact literalBody_append more hbody

/-- Without a backslash a literal is not torn. -/
theorem isTorn_of_not_mem {text : List Char} (h : '\\' ∉ text) : isTorn text = false := by
  have hbody : ∀ (q : Char) (body : List Char), '\\' ∉ body → escapesClose q body = false := by
    intro q body hslash
    induction body with
    | nil => rfl
    | cons c body ih =>
      rw [List.mem_cons, not_or] at hslash
      rw [escapesClose_cons (Ne.symm hslash.1)]
      exact ih hslash.2
  unfold isTorn
  split
  · next d body hopen =>
    rw [(eq_append_of_open? hopen).2, List.mem_append, not_or] at h
    rw [hbody _ _ h.2, Bool.and_false]
  · rfl

/-- The scan takes the literal that the grammar takes, exactly if the literal is not torn. -/
theorem scanLiteral?_eq_some_iff {taken value rest : List Char}
    (h : literal (taken ++ rest) = .done value rest) :
    scanLiteral? (taken ++ rest) = some (taken, rest) ↔ isTorn taken = false := by
  obtain ⟨d, body, hq, rfl, hopen, hbody⟩ := literal_append_inv h
  rw [scanLiteral?, hopen, isTorn, open?_truncate hopen, ← scanBody_eq_some_iff hq hbody]
  exact keep_eq_some_iff

end Cookbook.Text
