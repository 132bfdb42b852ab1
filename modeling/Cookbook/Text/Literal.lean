import Cookbook.Text.Blank
import Cookbook.Text.Parser
import Cookbook.Text.Search

/-!
# Text literals

A literal stands between single or double quotes, or between three of either. A backslash escapes
the next character. A literal in simple quotes ends on its line; one in triple quotes may go on.

## Main definitions

* `literal`: the literal at the start of a text.
* `literalValue?`: the value of a text that is one literal.
-/

namespace Cookbook.Text

/-- What a literal stands between. -/
structure Delimiter where
  quote : Char
  triple : Bool
  deriving DecidableEq, Repr

/-- A single or double quote. -/
def isQuote (c : Char) : Bool :=
  c == '"' || c == '\''

theorem eq_of_isQuote {c : Char} (h : isQuote c = true) : c = '"' ∨ c = '\'' := by
  simpa [isQuote] using h

namespace Delimiter

/-- The delimiter as text. -/
def text (d : Delimiter) : List Char :=
  if d.triple then [d.quote, d.quote, d.quote] else [d.quote]

/-- The delimiter at the start of a text, and what follows it. -/
def open? : List Char → Option (Delimiter × List Char)
  | [] => none
  | q :: rest =>
    if isQuote q then
      match rest with
      | a :: b :: after =>
        -- Two quotes without a third one are an empty literal, whose end `literalBody` finds.
        if a = q ∧ b = q then some (⟨q, true⟩, after) else some (⟨q, false⟩, rest)
      | _ => some (⟨q, false⟩, rest)
    else none

/-- What follows the delimiter, if the text starts with it. -/
def close? (d : Delimiter) (text : List Char) : Option (List Char) :=
  d.text.isPrefixOf? text

end Delimiter

/-- What a backslash and a character stand for: a line feed, a tab, a backslash or a quote, and
otherwise themselves. -/
def unescape (c : Char) : List Char :=
  if c = 'n' then ['\n']
  else if c = 't' then ['\t']
  else if c = '\\' ∨ isQuote c then [c]
  else ['\\', c]

/-- The rest of a literal after its opening delimiter. -/
def literalBody (d : Delimiter) : Parser (List Char)
  | [] => .stuck []
  | '\\' :: rest =>
    match rest with
    | [] => .stuck []
    | c :: rest => (literalBody d rest).map (unescape c ++ ·)
  | c :: rest =>
    match d.close? (c :: rest) with
    | some after => .done [] after
    | none =>
      if c = '\n' ∧ d.triple = false then .stuck rest
      else (literalBody d rest).map (c :: ·)

/-- The literal at the start of a text. -/
def literal : Parser (List Char) := fun input =>
  match Delimiter.open? input with
  | some (d, rest) => literalBody d rest
  | none => .stuck input

/-- The value of a text that is one literal, blanks around it aside. -/
def literalValue? (text : List Char) : Option (List Char) :=
  match literal (trim text) with
  | .done value [] => some value
  | _ => none

/-! ## What a literal takes -/

theorem Delimiter.length_text_pos (d : Delimiter) : 0 < d.text.length := by
  unfold Delimiter.text
  split <;> simp

theorem eq_append_of_close? {d : Delimiter} {text after : List Char}
    (h : d.close? text = some after) : text = d.text ++ after :=
  eq_append_of_isPrefixOf? h

/-- The body of a literal runs up to a closing delimiter. -/
theorem eq_append_of_literalBody {d : Delimiter} {text value rest : List Char}
    (h : literalBody d text = .done value rest) : ∃ body, text = body ++ d.text ++ rest := by
  -- An escaped character takes two characters of the text, any other one takes one, and the
  -- delimiter ends it.
  fun_induction literalBody d text generalizing value with
  | case1 => cases h
  | case2 => cases h
  | case3 c after ih =>
    cases hb : literalBody d after with
    | stuck r => simp [hb, Outcome.map] at h
    | done v r =>
      simp only [hb, Outcome.map, Outcome.done.injEq] at h
      obtain ⟨body, hbody⟩ := ih (h.2 ▸ hb)
      exact ⟨'\\' :: c :: body, by simp [hbody]⟩
  | case4 c after hc rest' hclose =>
    simp only [Outcome.done.injEq] at h
    exact ⟨[], by rw [eq_append_of_close? hclose, h.2]; rfl⟩
  | case5 => cases h
  | case6 c after hc hclose hline ih =>
    cases hb : literalBody d after with
    | stuck r => simp [hb, Outcome.map] at h
    | done v r =>
      simp only [hb, Outcome.map, Outcome.done.injEq] at h
      obtain ⟨body, hbody⟩ := ih (h.2 ▸ hb)
      exact ⟨c :: body, by simp [hbody]⟩

/-- An opening delimiter is made of quotes, and it is what the text starts with. -/
theorem eq_append_of_open? {text rest : List Char} {d : Delimiter}
    (h : Delimiter.open? text = some (d, rest)) :
    isQuote d.quote = true ∧ text = d.text ++ rest := by
  unfold Delimiter.open? at h
  split at h
  · cases h
  · next q after =>
    split at h
    · next hq =>
      split at h
      · next a b after' =>
        split at h
        · next hab => cases h; exact ⟨hq, by rw [hab.1, hab.2]; rfl⟩
        · cases h; exact ⟨hq, rfl⟩
      · cases h; exact ⟨hq, rfl⟩
    · cases h

/-- A literal is an opening delimiter, a body and the same delimiter again. -/
theorem eq_append_of_literal {text value rest : List Char} (h : literal text = .done value rest) :
    ∃ d body, Delimiter.open? text = some (d, body ++ d.text ++ rest) ∧
      literalBody d (body ++ d.text ++ rest) = .done value rest := by
  unfold literal at h
  split at h
  · next d after hopen =>
    obtain ⟨body, rfl⟩ := eq_append_of_literalBody h
    exact ⟨d, body, hopen, h⟩
  · cases h

/-- A literal takes an initial part of the text, and at least one character. -/
theorem exists_append_of_literal {text value rest : List Char}
    (h : literal text = .done value rest) : ∃ taken, taken ≠ [] ∧ text = taken ++ rest := by
  obtain ⟨d, body, hopen, -⟩ := eq_append_of_literal h
  refine ⟨d.text ++ body ++ d.text, ?_, ?_⟩
  · intro hnil
    have hd : d.text = [] := (List.append_eq_nil_iff.mp hnil).2
    exact absurd d.length_text_pos (by simp [hd])
  · rw [(eq_append_of_open? hopen).2]
    simp

/-- A literal takes at least one character. -/
theorem length_lt_of_literal {text value rest : List Char}
    (h : literal text = .done value rest) : rest.length < text.length := by
  obtain ⟨taken, hne, rfl⟩ := exists_append_of_literal h
  have := List.length_pos_iff.mpr hne
  simp only [List.length_append]
  omega

end Cookbook.Text
