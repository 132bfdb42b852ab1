/-!
# Blank characters

Two notions of white space meet in an artifact. Text around names, bodies and template fields is
trimmed by the Unicode property `White_Space` (`isBlank`); between the tokens of a rule or of a
registration call only space, tab, carriage return and line feed count (`isSpace`).
-/

namespace Cookbook.Text

/-- The Unicode property `White_Space`, 25 code points. -/
def isBlank (c : Char) : Bool :=
  let n := c.toNat
  (9 ≤ n && n ≤ 13) || n == 0x20 || n == 0x85 || n == 0xA0 || n == 0x1680 ||
    (0x2000 ≤ n && n ≤ 0x200A) || n == 0x2028 || n == 0x2029 || n == 0x202F || n == 0x205F ||
    n == 0x3000

/-- The white space between tokens: space, tab, carriage return and line feed. -/
def isSpace (c : Char) : Bool :=
  c == ' ' || c == '\t' || c == '\r' || c == '\n'

/-- Text without the longest tail of characters that satisfy `p`. -/
def dropEndWhile (p : Char → Bool) (text : List Char) : List Char :=
  (text.reverse.dropWhile p).reverse

/-- Text without its leading blanks. -/
def trimStart (text : List Char) : List Char :=
  text.dropWhile isBlank

/-- Text without its trailing blanks. -/
def trimEnd (text : List Char) : List Char :=
  dropEndWhile isBlank text

/-- Text without blanks at either end. -/
def trim (text : List Char) : List Char :=
  trimEnd (trimStart text)

/-! ## Laws -/

/-- The white space between tokens is blank. -/
theorem isBlank_of_isSpace {c : Char} (h : isSpace c = true) : isBlank c = true := by
  simp only [isSpace, Bool.or_eq_true, beq_iff_eq] at h
  rcases h with ((rfl | rfl) | rfl) | rfl <;> rfl

/-- Trimming the end keeps an initial part of the text, and what it drops satisfies the test. -/
theorem dropEndWhile_append (p : Char → Bool) (text : List Char) :
    dropEndWhile p text ++ (text.reverse.takeWhile p).reverse = text := by
  rw [dropEndWhile, ← List.reverse_append, List.takeWhile_append_dropWhile, List.reverse_reverse]

/-- What is trimmed from the end of a text is blank. -/
theorem exists_trimEnd_append (text : List Char) :
    ∃ back, trimEnd text ++ back = text ∧ ∀ c ∈ back, isBlank c = true :=
  ⟨_, dropEndWhile_append isBlank text, fun c hc =>
    List.all_eq_true.mp List.all_takeWhile c (List.mem_reverse.mp hc)⟩

/-- Text that does not end in a character that satisfies the test is not trimmed. -/
theorem dropEndWhile_eq_self {p : Char → Bool} {text : List Char}
    (h : ∀ c ∈ text.getLast?, p c = false) : dropEndWhile p text = text := by
  have hreverse : text.reverse.dropWhile p = text.reverse := by
    cases hlast : text.reverse with
    | nil => rfl
    | cons c front =>
      have hc : p c = false := h c (by rw [← List.head?_reverse, hlast]; rfl)
      simp [hc]
  rw [dropEndWhile, hreverse, List.reverse_reverse]

/-- Trimmed text does not end in a character that satisfies the test. -/
theorem eq_false_of_mem_getLast? {p : Char → Bool} {text : List Char} :
    ∀ c ∈ (dropEndWhile p text).getLast?, p c = false := by
  intro c hc
  rw [dropEndWhile, List.getLast?_reverse] at hc
  have hhead := List.head?_dropWhile_not p text.reverse
  rw [Option.mem_def.mp hc] at hhead
  simpa using hhead

/-- Trimming the start drops leading blanks only. -/
theorem takeWhile_append_trimStart (text : List Char) :
    text.takeWhile isBlank ++ trimStart text = text :=
  List.takeWhile_append_dropWhile

/-- Blanks are dropped up to the first character that is none. -/
theorem trimStart_append_cons {blanks rest : List Char} {c : Char}
    (h : ∀ d ∈ blanks, isBlank d = true) (hc : isBlank c = false) :
    trimStart (blanks ++ c :: rest) = c :: rest := by
  rw [trimStart, List.dropWhile_append_of_pos h]
  simp [hc]

/-- Text that neither starts nor ends with a blank is not trimmed. -/
theorem trim_eq_self {text : List Char} (hfirst : ∀ c ∈ text.head?, isBlank c = false)
    (hlast : ∀ c ∈ text.getLast?, isBlank c = false) : trim text = text := by
  have hstart : trimStart text = text := by
    cases text with
    | nil => rfl
    | cons c rest => exact List.dropWhile_cons_of_neg (by simp [hfirst c rfl])
  rw [trim, hstart, trimEnd, dropEndWhile_eq_self hlast]

end Cookbook.Text
