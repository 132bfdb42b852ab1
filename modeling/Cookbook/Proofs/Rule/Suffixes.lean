import Cookbook.Rule.Grammar

/-!
# What a parser leaves

Whether it makes a value or is stuck, a parser of the grammar leaves an end of its text. The offset at
which reading stopped is therefore a boundary between two characters.

## Main definitions

* `Parser.Leaves`: the parser leaves an end of every text.
* `Grammar.barePrimary`: the parser of primaries, but for the layout in front.

## Main results

* `Leaves.bind`, `leaves_separated`: sequences and lists leave an end of the text if their parts do.
* `leaves_lambda`: so does the parser of rules.
-/

namespace Cookbook

open Cookbook.Text

/-- The parser leaves an end of every text. -/
def Text.Parser.Leaves {α : Type} (p : Parser α) : Prop :=
  ∀ input, (p input).rest <:+ input

variable {α β : Type} {input rest : List Char}

namespace Text.Parser

theorem leaves_pure (value : α) : Leaves (Pure.pure value : Parser α) :=
  fun input => List.suffix_refl input

theorem Leaves.bind {p : Parser α} {next : α → Parser β} (hp : p.Leaves)
    (hnext : ∀ value, (next value).Leaves) : (p >>= next).Leaves := by
  intro input
  have hfirst := hp input
  rw [bind_apply]
  cases hrun : p input with
  | done value rest =>
    rw [hrun] at hfirst
    exact (hnext value rest).trans hfirst
  | stuck rest =>
    rw [hrun] at hfirst
    exact hfirst

theorem leaves_fail : (fail : Parser α).Leaves :=
  fun input => List.suffix_refl input

end Text.Parser

theorem Text.Outcome.rest_map (f : α → β) (outcome : Outcome α) :
    (outcome.map f).rest = outcome.rest := by
  cases outcome <;> rfl

namespace Grammar

open Parser

/-! ## Tokens -/

theorem skipLayout_isSuffix (input : List Char) : skipLayout input <:+ input := by
  obtain ⟨skipped, hskipped⟩ := skipLayout_suffix input
  exact ⟨skipped, hskipped.symm⟩

theorem leaves_layout : layout.Leaves :=
  skipLayout_isSuffix

theorem leaves_identifier : identifier.Leaves := by
  intro input
  unfold identifier
  split
  · exact List.suffix_refl _
  · next c rest =>
    split
    · exact (List.dropWhile_suffix _).trans (List.suffix_cons c rest)
    · exact List.suffix_refl _

theorem leaves_name : name.Leaves := by
  intro input
  have hid := leaves_identifier input
  unfold name
  split
  · next id rest hrun =>
    rw [hrun] at hid
    split
    · exact List.suffix_refl _
    · exact hid
  · exact List.suffix_refl _

theorem isSuffix_of_afterWord? {word : String} (h : afterWord? word input = some rest) :
    rest <:+ input := by
  unfold afterWord? at h
  split at h
  · next hprefix =>
    cases h
    exact ⟨word.toList, (eq_append_of_isPrefixOf? hprefix).symm⟩
  · next c after hprefix =>
    split at h
    · cases h
    · cases h
      exact ⟨word.toList, (eq_append_of_isPrefixOf? hprefix).symm⟩
  · cases h

theorem leaves_word (text : String) : (word text).Leaves := by
  intro input
  unfold word
  split
  · next rest hrest => exact isSuffix_of_afterWord? hrest
  · exact List.suffix_refl _

theorem leaves_label {id : Parser String} (hid : id.Leaves) : (label id).Leaves := by
  intro input
  have hfirst := hid input
  unfold label
  split
  · exact List.suffix_refl _
  · next found rest hrun =>
    rw [hrun] at hfirst
    have hskip := (skipLayout_isSuffix rest).trans hfirst
    split
    · exact List.suffix_refl _
    · next after heq =>
      rw [heq] at hskip
      exact (List.suffix_cons _ _).trans hskip
    · exact List.suffix_refl _

theorem leaves_integer : integer.Leaves := by
  intro input
  have hsign : (minusSign input).2 <:+ input := by
    unfold minusSign
    split
    · exact List.suffix_cons _ _
    · exact List.suffix_refl _
  have hrest := (List.dropWhile_suffix Char.isDigit).trans hsign
  unfold integer
  dsimp only
  split
  · exact hsign
  · -- The sign makes no difference to what is left.
    split <;> split <;> exact hrest

theorem leaves_literalBody (d : Delimiter) : (literalBody d).Leaves := by
  intro input
  fun_induction literalBody d input with
  | case1 => exact List.suffix_refl _
  | case2 => exact List.suffix_cons _ _
  | case3 c rest ih =>
    rw [Outcome.rest_map]
    exact ih.trans ((List.suffix_cons _ _).trans (List.suffix_cons _ _))
  | case4 c rest _ after hclose => exact ⟨d.text, (eq_append_of_close? hclose).symm⟩
  | case5 c rest => exact List.suffix_cons _ _
  | case6 c rest _ _ _ ih =>
    rw [Outcome.rest_map]
    exact ih.trans (List.suffix_cons _ _)

theorem leaves_literal : literal.Leaves := by
  intro input
  unfold literal
  split
  · next d rest hopen =>
    exact (leaves_literalBody d rest).trans ⟨d.text, (eq_append_of_open? hopen).2.symm⟩
  · exact List.suffix_refl _

/-! ## Lists -/

theorem isSuffix_of_after? {c : Char} (h : after? c input = some rest) : rest <:+ input := by
  unfold after? at h
  split at h
  · cases h
  · split at h
    · cases h
      exact List.suffix_cons _ _
    · cases h

theorem leaves_separated {close : Char} {item : Parser α} (hitem : item.Leaves) (fuel : Nat) :
    (separated close item fuel).Leaves := by
  induction fuel with
  | zero => exact leaves_fail
  | succ fuel ih =>
    intro input
    have hskip := skipLayout_isSuffix input
    rw [separated]
    dsimp only
    split
    · next rest hrest => exact (isSuffix_of_after? hrest).trans hskip
    -- One turn leaves a suffix, and so do the turns behind it.
    · have hrun := (hitem.bind fun found => leaves_layout.bind fun _ => leaves_pure found)
        (skipLayout input)
      split
      · next rest heq =>
        rw [heq] at hrun
        exact hrun.trans hskip
      · next found rest heq =>
        rw [heq] at hrun
        rw [Outcome.rest_map]
        exact (ih rest).trans ((List.suffix_cons _ _).trans (hrun.trans hskip))
      · next found rest _ heq =>
        rw [heq] at hrun
        split
        · next rest' hafter =>
          exact (isSuffix_of_after? hafter).trans (hrun.trans hskip)
        · exact hrun.trans hskip

/-! ## Terms -/

variable {expression : Parser Term}

theorem leaves_argument (h : expression.Leaves) : (argument expression).Leaves := by
  intro input
  have hlabel := leaves_label leaves_name input
  unfold argument
  split
  · next found rest hrun =>
    rw [hrun] at hlabel
    rw [Outcome.rest_map]
    exact (h rest).trans hlabel
  · rw [Outcome.rest_map]
    exact h input

theorem leaves_arguments (h : expression.Leaves) (fuel : Nat) :
    (arguments expression fuel).Leaves := by
  intro input
  rw [arguments, Outcome.rest_map]
  exact leaves_separated (leaves_argument h) fuel input

theorem leaves_reference (h : expression.Leaves) (fuel : Nat) (id : String) :
    (reference expression fuel id).Leaves := by
  intro input
  unfold reference
  split
  · exact List.suffix_refl _
  · split
    · exact List.suffix_refl _
    · split
      · exact List.suffix_refl _
      · split
        · rw [Outcome.rest_map]
          exact (leaves_arguments h fuel _).trans
            ((List.suffix_cons _ _).trans (List.suffix_cons _ _))
        · exact List.suffix_refl _

/-- A primary with no layout in front of it. -/
def barePrimary (expression : Parser Term) (fuel : Nat) : Parser Term
  | [] => .stuck []
  | '(' :: rest => (separated ')' expression fuel rest).map groupTerm
  | c :: rest =>
    if isQuote c then (literal (c :: rest)).map fun value => .text (String.ofList value)
    else if c.isDigit || c == '-' then (integer (c :: rest)).map .int
    else (do reference expression fuel (← name) : Parser Term) (c :: rest)

theorem primary_eq_bare (fuel : Nat) (input : List Char) :
    primary expression fuel input = barePrimary expression fuel (skipLayout input) :=
  rfl

theorem leaves_barePrimary (h : expression.Leaves) (fuel : Nat) : (barePrimary expression fuel).Leaves := by
  intro input
  unfold barePrimary
  split
  · exact List.nil_suffix
  · next rest =>
    rw [Outcome.rest_map]
    exact (leaves_separated h fuel rest).trans (List.suffix_cons _ _)
  · next c rest _ =>
    split
    · rw [Outcome.rest_map]
      exact leaves_literal _
    · split
      · rw [Outcome.rest_map]
        exact leaves_integer _
      · exact (leaves_name.bind fun id => leaves_reference h fuel id) _

theorem leaves_primary (h : expression.Leaves) (fuel : Nat) : (primary expression fuel).Leaves := by
  intro input
  rw [primary_eq_bare]
  exact (leaves_barePrimary h fuel _).trans (skipLayout_isSuffix input)

theorem leaves_accesses (h : expression.Leaves) (fuel : Nat) (term : Term) :
    (accesses expression fuel term).Leaves := by
  induction fuel generalizing term with
  | zero => exact leaves_fail
  | succ fuel ih =>
    intro input
    have hskip := skipLayout_isSuffix input
    rw [accesses]
    dsimp only
    -- Behind a dot, behind a parenthesis, or at the end of the accesses.
    split
    · next rest heq =>
      rw [heq] at hskip
      have hfield := leaves_layout.bind fun _ => leaves_name.bind fun field => ih (.attribute term field)
      exact (hfield rest).trans ((List.suffix_cons _ _).trans hskip)
    · next rest heq =>
      rw [heq] at hskip
      have hcall := (leaves_arguments h fuel).bind fun found => ih (.call term found)
      exact (hcall rest).trans ((List.suffix_cons _ _).trans hskip)
    · exact List.suffix_refl _

theorem leaves_access (h : expression.Leaves) (fuel : Nat) : (access expression fuel).Leaves :=
  (leaves_primary h fuel).bind fun term => leaves_accesses h fuel term

theorem leaves_summands (h : expression.Leaves) (depth fuel : Nat) :
    (summands expression depth fuel).Leaves := by
  induction fuel with
  | zero => exact leaves_fail
  | succ fuel ih =>
    intro input
    have hskip := skipLayout_isSuffix input
    rw [summands]
    dsimp only
    split
    · next rest heq =>
      rw [heq] at hskip
      have hpart := (leaves_access h depth).bind fun part => ih.bind fun parts =>
        leaves_pure (part :: parts)
      exact (hpart rest).trans ((List.suffix_cons _ _).trans hskip)
    · exact List.suffix_refl _

theorem leaves_sum (h : expression.Leaves) (fuel : Nat) : (sum expression fuel).Leaves :=
  (leaves_access h fuel).bind fun _ => (leaves_summands h fuel fuel).bind fun _ => leaves_pure _

theorem leaves_choice (h : expression.Leaves) (fuel : Nat) : (choice expression fuel).Leaves := by
  intro input
  have hsum := leaves_sum h fuel input
  unfold choice
  split
  · next rest heq =>
    rw [heq] at hsum
    exact hsum
  · next thenBranch rest heq =>
    rw [heq] at hsum
    split
    · exact hsum
    · next after hif =>
      have hbranches := (leaves_sum h fuel).bind fun condition => leaves_layout.bind fun _ =>
        (leaves_word "else").bind fun _ => h.bind fun otherwise =>
          leaves_pure (Term.conditional thenBranch condition otherwise)
      exact (hbranches after).trans
        ((isSuffix_of_afterWord? hif).trans ((skipLayout_isSuffix rest).trans hsum))

theorem leaves_expression (fuel : Nat) : (Grammar.expression fuel).Leaves := by
  induction fuel with
  | zero => exact leaves_fail
  | succ fuel ih => exact leaves_choice ih _

/-! ## Rules -/

theorem leaves_formals : formals.Leaves := by
  refine leaves_layout.bind fun _ => (leaves_word "lambda").bind fun _ => fun input => ?_
  rw [Outcome.rest_map]
  exact leaves_separated leaves_name _ input

theorem leaves_lambda : lambda.Leaves :=
  leaves_formals.bind fun _ =>
    Leaves.bind (fun input => leaves_expression _ input) fun _ => leaves_pure _

end Grammar

end Cookbook
