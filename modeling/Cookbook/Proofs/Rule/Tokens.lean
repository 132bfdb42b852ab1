import Cookbook.Json.Number
import Cookbook.Proofs.Text.Layout
import Cookbook.Proofs.Text.QuotedLiteral
import Cookbook.Rule.Grammar

/-!
# Tokens of rules

How names, labels and numbers are written, and that the parsers of tokens read them back whatever
comes after them, as long as it does not continue them.

## Main definitions

* `IsName`, `IsVariable`: names, and names that stand for no constant.
* `Boundary`: what continues no token.

## Main results

* `name_append`, `integer_append`, `label_done`: written tokens are read back.
-/

namespace Cookbook

open Cookbook.Text Cookbook.Grammar

/-! ## Written tokens -/

/-- An identifier that is not reserved. -/
def IsName (id : String) : Prop :=
  isIdentifier id.toList = true ∧ id ∉ Grammar.reserved

/-- The words that stand for a truth value. -/
def truthWords : Bool → List String
  | true => ["True", "true"]
  | false => ["False", "false"]

/-- A name that does not stand for a constant. -/
def IsVariable (id : String) : Prop :=
  IsName id ∧ id ∉ truthWords true ∧ id ∉ truthWords false ∧ id ≠ "None"

/-- A gap that separates two words. -/
def IsBreak (gap : List Char) : Prop :=
  IsGap gap ∧ gap ≠ []

/-- What stands in front of the value of an argument. -/
inductive WrittenLabel : Option String → List Char → Prop where
  | positional : WrittenLabel none []
  | labelled {id : String} {gap after : List Char} : IsName id → IsGap gap → IsGap after →
      WrittenLabel (some id) (id.toList ++ gap ++ '=' :: after)

variable {c : Char} {gap rest : List Char}

theorem exists_cons_of_isIdentifier {text : List Char} (h : isIdentifier text = true) :
    ∃ c rest, text = c :: rest ∧ isIdentStart c = true ∧ ∀ d ∈ rest, isIdentChar d = true := by
  cases text with
  | nil => cases h
  | cons c rest =>
    rw [isIdentifier, Bool.and_eq_true, List.all_eq_true] at h
    exact ⟨c, rest, rfl, h⟩

theorem isIdentChar_of_isIdentStart (h : isIdentStart c = true) : isIdentChar c = true := by
  rw [isIdentStart, Bool.or_eq_true] at h
  simp only [isIdentChar, Char.isAlphanum, Bool.or_eq_true]
  exact h.imp_left .inl

theorem forall_isIdentChar {text : List Char} (h : isIdentifier text = true) :
    ∀ c ∈ text, isIdentChar c = true := by
  obtain ⟨c, tail, rfl, hc, htail⟩ := exists_cons_of_isIdentifier h
  exact List.forall_mem_cons.mpr ⟨isIdentChar_of_isIdentStart hc, htail⟩

theorem isName_of_mem_truthWords {value : Bool} {word : String} (h : word ∈ truthWords value) :
    IsName word := by
  unfold IsName
  revert word
  cases value <;> decide

theorem isDigit_toDigits (n : Nat) : ∀ c ∈ Nat.toDigits 10 n, c.isDigit = true :=
  fun _ hc => Nat.isDigit_of_mem_toDigits (by decide) (by decide) hc

theorem isEmpty_toDigits (n : Nat) : (Nat.toDigits 10 n).isEmpty = false :=
  List.isEmpty_eq_false_iff.mpr Nat.toDigits_ne_nil

/-- The text of an integer is a row of digits, or a minus sign and a row of digits. -/
theorem toList_decimalInt (n : Int) :
    (Number.decimalInt n).toList =
      (if n < 0 then ['-'] else []) ++ Nat.toDigits 10 n.natAbs := by
  unfold Number.decimalInt Number.decimal
  split <;> simp

theorem exists_cons_of_decimalInt (n : Int) :
    ∃ c rest, (Number.decimalInt n).toList = c :: rest ∧ (c = '-' ∨ c.isDigit = true) := by
  rw [toList_decimalInt]
  by_cases h : n < 0
  · exact ⟨'-', Nat.toDigits 10 n.natAbs, by simp [h], .inl rfl⟩
  · obtain ⟨c, rest, hdigits⟩ :=
      List.exists_cons_of_ne_nil (Nat.toDigits_ne_nil (n := n.natAbs) (b := 10))
    have hdigit : c.isDigit = true := isDigit_toDigits _ c (hdigits ▸ List.mem_cons_self)
    exact ⟨c, rest, by simp [h, hdigits], .inr hdigit⟩

/-! ## First characters -/

theorem ne_of_test {p : Char → Bool} {d : Char} (hc : p c = true) (hd : p d = false) : c ≠ d := by
  rintro rfl
  rw [hd] at hc
  cases hc

/-- The code points of ASCII letters. -/
theorem toNat_of_isAlpha (h : c.isAlpha = true) :
    (65 ≤ c.toNat ∧ c.toNat ≤ 90) ∨ (97 ≤ c.toNat ∧ c.toNat ≤ 122) := by
  have hranges : (decide (65 ≤ c.val ∧ c.val ≤ 90) ||
      (decide (97 ≤ c.val) && decide (c.val ≤ 122))) = true := h
  simpa [UInt32.le_iff_toNat_le] using hranges

/-- The code points of decimal digits. -/
theorem toNat_of_isDigit (h : c.isDigit = true) : 48 ≤ c.toNat ∧ c.toNat ≤ 57 := by
  have hrange : (decide (48 ≤ c.val) && decide (c.val ≤ 57)) = true := h
  simpa [UInt32.le_iff_toNat_le] using hrange

theorem isBlank_of_isIdentChar (h : isIdentChar c = true) : isBlank c = false := by
  have hrange : 48 ≤ c.toNat ∧ c.toNat ≤ 122 := by
    simp only [isIdentChar, Char.isAlphanum, Bool.or_eq_true, beq_iff_eq] at h
    rcases h with (halpha | hdigit) | rfl
    · have hletter := toNat_of_isAlpha halpha
      omega
    · have hlow := toNat_of_isDigit hdigit
      omega
    · decide
  simp [isBlank]
  omega

/-- Nothing is trimmed from the characters of identifiers. -/
theorem trim_identChars {text : List Char} (h : ∀ c ∈ text, isIdentChar c = true) :
    trim text = text :=
  trim_eq_self (fun c hc => isBlank_of_isIdentChar (h c (List.mem_of_head? hc)))
    fun c hc => isBlank_of_isIdentChar (h c (List.mem_of_getLast? hc))

theorem of_isIdentStart (h : isIdentStart c = true) :
    startsGap c = false ∧ c ≠ '(' ∧ c ≠ ')' ∧ isQuote c = false ∧
      (c.isDigit || c == '-') = false := by
  have hne : ∀ d, isIdentStart d = false → c ≠ d := fun _ hd => ne_of_test h hd
  refine ⟨?_, hne _ (by decide), hne _ (by decide), ?_, ?_⟩
  · simp [startsGap, isSpace, hne ' ', hne '\t', hne '\r', hne '\n', hne '#', isIdentStart]
  · simp [isQuote, hne '\'', hne '"', isIdentStart]
  · have hdigit : c.isDigit = false := by
      cases hdigit : c.isDigit with
      | false => rfl
      | true =>
        have halpha : c.isAlpha = true := by
          rw [isIdentStart, Bool.or_eq_true, beq_iff_eq] at h
          exact h.resolve_right (by rintro rfl; cases hdigit)
        have hletter := toNat_of_isAlpha halpha
        have hlow := toNat_of_isDigit hdigit
        omega
    simp [hdigit, hne '-', isIdentStart]

theorem of_startsInteger (h : c = '-' ∨ c.isDigit = true) :
    startsGap c = false ∧ c ≠ '(' ∧ isQuote c = false ∧ isIdentStart c = false := by
  have hne : ∀ d, d ≠ '-' → d.isDigit = false → c ≠ d := by
    rintro d hd hdigit rfl
    exact h.elim hd (by simp [hdigit])
  refine ⟨?_, hne _ (by decide) (by decide), ?_, ?_⟩
  · simp [startsGap, isSpace, hne ' ', hne '\t', hne '\r', hne '\n', hne '#']
  · simp [isQuote, hne '\'', hne '"']
  · cases hstart : isIdentStart c with
    | false => rfl
    | true =>
      have hother := (of_isIdentStart hstart).2.2.2.2
      rcases h with rfl | hdigit
      · cases hother
      · simp [hdigit] at hother

/-! ## What may follow -/

/-- What may follow a term: nothing with which a name, a number, a literal or the name of a macro
would go on. -/
def Boundary (rest : List Char) : Prop :=
  ∀ c ∈ rest.head?, isIdentChar c = false ∧ c ≠ '"' ∧ c ≠ '!'

theorem Boundary.cons (h : (isIdentChar c || c == '"' || c == '!') = false) :
    Boundary (c :: rest) := by
  intro d hd
  cases hd
  simpa [and_assoc] using h

theorem Boundary.head?_ne_quote (h : Boundary rest) : rest.head? ≠ some '"' :=
  fun hquote => (h '"' hquote).2.1 rfl

theorem of_startsGap (h : startsGap c = true) : isIdentChar c = false ∧ c ≠ '"' ∧ c ≠ '!' := by
  have hcases : c = ' ' ∨ c = '\t' ∨ c = '\r' ∨ c = '\n' ∨ c = '#' := by
    simpa [startsGap, isSpace, or_assoc] using h
  rcases hcases with rfl | rfl | rfl | rfl | rfl <;> decide

theorem boundary_of_startsGap (h : startsGap c = true) : Boundary (c :: rest) :=
  .cons (by simp [of_startsGap h])

/-- A gap does not continue a term. -/
theorem boundary_gap (hgap : IsGap gap) (hrest : Boundary rest) : Boundary (gap ++ rest) := by
  rcases hgap.eq_nil_or_cons with rfl | ⟨c, tail, rfl, hc⟩
  · exact hrest
  · exact boundary_of_startsGap hc

theorem boundary_break (hgap : IsBreak gap) : Boundary (gap ++ rest) := by
  obtain ⟨c, tail, rfl, hc⟩ := hgap.1.eq_nil_or_cons.resolve_left hgap.2
  exact boundary_of_startsGap hc

/-! ## Reading tokens -/

theorem takeWhile_append_of_boundary {p : Char → Bool} {front : List Char}
    (hfront : ∀ c ∈ front, p c = true) (hrest : ∀ c ∈ rest.head?, p c = false) :
    (front ++ rest).takeWhile p = front ∧ (front ++ rest).dropWhile p = rest := by
  rw [List.takeWhile_append_of_pos hfront, List.dropWhile_append_of_pos hfront]
  cases rest with
  | nil => simp
  | cons c rest =>
    have hc : p c = false := hrest c rfl
    simp [hc]

theorem identifier_append {id : String} (h : isIdentifier id.toList = true)
    (hrest : ∀ c ∈ rest.head?, isIdentChar c = false) :
    identifier (id.toList ++ rest) = .done id rest := by
  obtain ⟨c, tail, hid, hc, htail⟩ := exists_cons_of_isIdentifier h
  obtain ⟨htake, hdrop⟩ := takeWhile_append_of_boundary htail hrest
  rw [hid, List.cons_append, identifier, if_pos hc, htake, hdrop, ← hid, String.ofList_toList]

theorem name_append {id : String} (h : IsName id) (hrest : ∀ c ∈ rest.head?, isIdentChar c = false) :
    name (id.toList ++ rest) = .done id rest := by
  rw [name, identifier_append h.1 hrest]
  exact if_neg h.2

/-- An identifier that is taken ends in front of something that does not continue it. -/
theorem identifier_inv {id : String} {input : List Char} (h : identifier input = .done id rest) :
    isIdentifier id.toList = true ∧ input = id.toList ++ rest ∧
      ∀ c ∈ rest.head?, isIdentChar c = false := by
  unfold identifier at h
  split at h
  · cases h
  · next c tail =>
    split at h
    · next hc =>
      cases h
      refine ⟨?_, ?_, fun d hd => ?_⟩
      · rw [String.toList_ofList, isIdentifier, hc, Bool.true_and, List.all_takeWhile]
      · rw [String.toList_ofList, List.cons_append, List.takeWhile_append_dropWhile]
      · have hhead := List.head?_dropWhile_not isIdentChar tail
        rw [Option.mem_def.mp hd] at hhead
        simpa using hhead
    · cases h

theorem identifier_stuck (hc : isIdentStart c = false) (rest : List Char) :
    identifier (c :: rest) = .stuck (c :: rest) := by
  simp [identifier, hc]

theorem name_stuck (hc : isIdentStart c = false) (rest : List Char) :
    name (c :: rest) = .stuck (c :: rest) := by
  rw [name, identifier_stuck hc]

/-- Digits read back as the number that they were written for. -/
theorem foldl_toDigits (n : Nat) :
    (Nat.toDigits 10 n).foldl (fun n d => n * 10 + (d.toNat - '0'.toNat)) 0 = n := by
  have h : Nat.ofDigitChars 10 (Nat.toDigits 10 n) 0 = n := Nat.ofDigitChars_ten_toDigits
  simpa only [Nat.ofDigitChars, Nat.mul_comm 10] using h

/-- A row of digits, with a minus sign or not, is read as a number that fits. -/
theorem integer_toDigits {sign : List Char} {negative : Bool} {n : Nat} {value : Int64}
    (hsign : sign = if negative then ['-'] else [])
    (hvalue : value.toInt = if negative then -(n : Int) else n)
    (hrest : ∀ c ∈ rest.head?, c.isDigit = false) :
    integer (sign ++ Nat.toDigits 10 n ++ rest) = .done value rest := by
  obtain ⟨htake, hdrop⟩ := takeWhile_append_of_boundary (isDigit_toDigits n) hrest
  -- The value is one of 64 bits, so the range check passes.
  have hlow : Int64.minValue.toInt ≤ value.toInt := Int64.minValue_le_toInt value
  have hhigh : value.toInt ≤ Int64.maxValue.toInt := Int64.toInt_le value
  -- The sign is found, whether it is there or the text starts with a digit.
  have hstart : minusSign (sign ++ Nat.toDigits 10 n ++ rest) =
      (negative, Nat.toDigits 10 n ++ rest) := by
    subst hsign
    cases negative with
    | true => rfl
    | false =>
      obtain ⟨c, tail, hcons⟩ := List.exists_cons_of_ne_nil (Nat.toDigits_ne_nil (n := n) (b := 10))
      have hc : c ≠ '-' := by
        rintro rfl
        exact absurd (isDigit_toDigits n '-' (hcons ▸ List.mem_cons_self)) (by decide)
      rw [hcons]
      exact minusSign.eq_2 _ (by simp [hc])
  unfold integer
  rw [hstart]
  simp only [htake, hdrop, foldl_toDigits, isEmpty_toDigits, ← hvalue, hlow, hhigh, and_self, if_true,
    Int64.ofInt_toInt, Bool.false_eq_true, if_false]

theorem integer_append (value : Int64) (hrest : ∀ c ∈ rest.head?, c.isDigit = false) :
    integer ((Number.decimalInt value.toInt).toList ++ rest) = .done value rest := by
  rw [toList_decimalInt]
  by_cases h : value.toInt < 0
  · have hvalue : value.toInt = -(value.toInt.natAbs : Int) := by omega
    exact @integer_toDigits rest _ true _ _ (by simp [h]) (hvalue.trans (if_pos rfl).symm) hrest
  · have hvalue : value.toInt = (value.toInt.natAbs : Int) := by omega
    exact @integer_toDigits rest _ false _ _ (by simp [h]) hvalue hrest

theorem afterWord?_append {word : String} (hrest : ∀ c ∈ rest.head?, isIdentChar c = false) :
    afterWord? word (word.toList ++ rest) = some rest := by
  rw [afterWord?, isPrefixOf?_append]
  cases rest with
  | nil => rfl
  | cons c rest =>
    have hc : isIdentChar c = false := hrest c rfl
    simp [hc]

/-! ## Labels -/

section Labels

variable {id : Parser String} {found : String} {input left : List Char}

/-- A name in front of an equals sign is a label. -/
theorem label_done (h : id input = .done found (gap ++ '=' :: rest)) (hgap : IsGap gap)
    (hsign : rest.head? ≠ some '=') : label id input = .done found rest := by
  simp only [label, h, skipLayout_gap_cons (c := '=') hgap (by decide)]
  split
  · next heq => cases heq; exact absurd rfl hsign
  · next heq => cases heq; rfl
  · next hother => exact absurd rfl (hother rest)

theorem label_stuck_of_done (h : id input = .done found rest)
    (hsign : (skipLayout rest).head? ≠ some '=') : label id input = .stuck input := by
  simp only [label, h]
  split
  · rfl
  · next heq => rw [heq] at hsign; exact absurd rfl hsign
  · rfl

theorem label_stuck_of_stuck (h : id input = .stuck left) : label id input = .stuck input := by
  simp only [label, h]

end Labels

end Cookbook
