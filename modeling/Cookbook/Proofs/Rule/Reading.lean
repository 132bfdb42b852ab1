import Mathlib.Data.List.Forall2
import Cookbook.Proofs.Rule.Written

/-!
# Reading what is written

The parser of rules reads every text of a term back as that term. What follows the text must not
continue it, and how it could be continued depends on the place.

## Main definitions

* `EndsSum`, `EndsExpression`: after which a term is over.
* `Reads`: the parser of a place gives back the term of a text.

## Main results

* `Written.reads`: every text is read as the term that it was written for.
-/

namespace Cookbook

open Cookbook.Text Cookbook.Grammar

variable {c close : Char} {gap rest : List Char}

/-! ## What may follow -/

/-- After which a sum is over: no further field, call or part follows. -/
def EndsSum (rest : List Char) : Prop :=
  Boundary rest ∧ ∀ c ∈ (skipLayout rest).head?, c ≠ '.' ∧ c ≠ '(' ∧ c ≠ '+'

/-- After which an expression is over: no condition follows either. -/
def EndsExpression (rest : List Char) : Prop :=
  EndsSum rest ∧ afterWord? "if" (skipLayout rest) = none

/-- A comma or a closing character after a gap ends every term. -/
theorem ends_of_separator (hgap : IsGap gap) (hc : c = ',' ∨ c = ')') :
    EndsExpression (gap ++ c :: rest) := by
  have hboundary : Boundary (c :: rest) := by
    rcases hc with rfl | rfl <;> exact .cons rfl
  have hskip : skipLayout (gap ++ c :: rest) = c :: rest :=
    skipLayout_gap_cons hgap (by rcases hc with rfl | rfl <;> decide)
  refine ⟨⟨boundary_gap hgap hboundary, ?_⟩, ?_⟩
  · rw [hskip]
    intro d hd
    cases hd
    rcases hc with rfl | rfl <;> decide
  · rw [hskip]
    rcases hc with rfl | rfl <;> rfl

/-! ## Layout in front -/

variable {n fuel depth : Nat} {e : Parser Term}

/-- Layout in front of a term is skipped. -/
theorem primary_gap (hgap : IsGap gap) (text : List Char) :
    primary e fuel (gap ++ text) = primary e fuel text := by
  rw [primary, primary, skipLayout_gap hgap]

theorem access_gap (hgap : IsGap gap) (text : List Char) :
    access e fuel (gap ++ text) = access e fuel text := by
  rw [access, Parser.bind_apply, Parser.bind_apply, primary_gap hgap]

theorem sum_gap (hgap : IsGap gap) (text : List Char) :
    sum e fuel (gap ++ text) = sum e fuel text := by
  rw [sum, Parser.bind_apply, Parser.bind_apply, access_gap hgap]

theorem expression_gap (hgap : IsGap gap) (hn : 0 < n) (text : List Char) :
    expression n (gap ++ text) = expression n text := by
  obtain ⟨m, rfl⟩ := Nat.exists_eq_add_one_of_ne_zero (Nat.ne_zero_of_lt hn)
  rw [expression, choice, choice, sum_gap hgap]

/-! ## Lists -/

section Lists

variable {α : Type} {item : Parser α} {value : α} {part after : List Char} {bound : Nat}

/-- The parser of an item reads a part of a list as a value, whatever separator comes after it. -/
structure ReadsItem (item : Parser α) (close : Char) (bound : Nat) (value : α) (part : List Char) :
    Prop where
  start : ∃ c tail, part = c :: tail ∧ startsGap c = false ∧ c ≠ close
  reads : ∀ {gap : List Char} {d : Char} {rest : List Char}, IsGap gap → d = ',' ∨ d = close →
    (part ++ (gap ++ d :: rest)).length < bound →
    item (part ++ (gap ++ d :: rest)) = .done value (gap ++ d :: rest)

/-- One turn of the loop: the part is no closing character, and the separator after it is found. -/
theorem ReadsItem.turn (h : ReadsItem item close bound value part) (hgap : IsGap gap)
    (hafter : IsGap after) (hc : c = ',' ∨ c = close) (hstart : startsGap c = false)
    (hlength : (part ++ (after ++ c :: rest)).length < bound) :
    after? close (skipLayout (gap ++ part ++ after ++ c :: rest)) = none ∧
      (do let found ← item; layout; return found : Parser α)
        (skipLayout (gap ++ part ++ after ++ c :: rest)) = .done value (c :: rest) := by
  obtain ⟨d, tail, hpart, hd, hne⟩ := h.start
  have hskip : skipLayout (gap ++ part ++ after ++ c :: rest) = part ++ (after ++ c :: rest) := by
    rw [hpart, List.append_assoc, List.append_assoc, List.cons_append]
    exact skipLayout_gap_cons hgap hd
  rw [hskip]
  constructor
  · rw [hpart, List.cons_append, after?, if_neg hne]
  · rw [Parser.bind_apply, h.reads hafter hc hlength]
    show Outcome.done value (skipLayout (after ++ c :: rest)) = _
    rw [skipLayout_gap_cons hafter hstart]

/-- The loop over a list gives back the values of its parts. -/
theorem separated_listed {parts : List (List Char)} {comma : Bool} {list : List Char}
    {values : List α} (h : Listed close parts comma list) (hclose : startsGap close = false)
    (hcomma : close ≠ ',') (hitems : List.Forall₂ (ReadsItem item close bound) values parts)
    (hfuel : (list ++ rest).length < fuel) (hbound : (list ++ rest).length < bound) :
    separated close item fuel (list ++ rest) = .done (values, comma) rest := by
  -- The fuel falls with every part. The bound of the items stays, as every part is shorter.
  induction h generalizing values fuel with
  | @nil gap hgap =>
    cases hitems
    obtain ⟨fuel, rfl⟩ := Nat.exists_eq_add_one_of_ne_zero (Nat.ne_zero_of_lt hfuel)
    rw [List.append_assoc, List.singleton_append]
    simp only [separated, skipLayout_gap_cons hgap hclose]
    simp [after?]
  | @last gap part after hgap hafter =>
    obtain ⟨value, rfl, hread⟩ : ∃ value, values = [value] ∧ ReadsItem item close bound value part := by
      cases hitems with
      | cons hread hnil => cases hnil; exact ⟨_, rfl, hread⟩
    obtain ⟨fuel, rfl⟩ := Nat.exists_eq_add_one_of_ne_zero (Nat.ne_zero_of_lt hfuel)
    have hlength : (part ++ (after ++ close :: rest)).length < bound := by
      simp at hbound ⊢; omega
    obtain ⟨hnone, hitem⟩ := hread.turn hgap hafter (.inr rfl) hclose hlength
    rw [List.append_assoc, List.singleton_append]
    simp only [separated, hnone, hitem]
    split
    · next heq => cases heq
    · next heq => cases heq; exact absurd rfl hcomma
    · next heq => cases heq; simp [after?]
  | @cons gap part after tail parts comma hgap hafter _ ih =>
    cases hitems with
    | cons hread hmore =>
      obtain ⟨fuel, rfl⟩ := Nat.exists_eq_add_one_of_ne_zero (Nat.ne_zero_of_lt hfuel)
      have hlength : (part ++ (after ++ ',' :: (tail ++ rest))).length < bound := by
        simp at hbound ⊢; omega
      obtain ⟨hnone, hitem⟩ := hread.turn hgap hafter (.inl rfl) (by decide) hlength
      rw [List.append_assoc, List.cons_append]
      simp only [separated, hnone, hitem]
      rw [ih hmore (by simp at hfuel ⊢; omega) (by simp at hbound ⊢; omega)]
      rfl

end Lists

/-! ## Places -/

/-- A primary with what follows it is read up to the fields and calls after it. -/
def ReadsAccess (term : Term) (body : List Char) : Prop :=
  ∀ ⦃n fuel : Nat⦄ ⦃rest : List Char⦄, Boundary rest → (body ++ rest).length ≤ n →
    (body ++ rest).length < fuel → ∃ left, rest.length < left ∧
      access (expression n) fuel (body ++ rest) = accesses (expression n) left term rest

def ReadsSum (term : Term) (body : List Char) : Prop :=
  ∀ ⦃n fuel : Nat⦄ ⦃rest : List Char⦄, EndsSum rest → (body ++ rest).length ≤ n →
    (body ++ rest).length < fuel → sum (expression n) fuel (body ++ rest) = .done term rest

def ReadsExpression (term : Term) (body : List Char) : Prop :=
  ∀ ⦃n : Nat⦄ ⦃rest : List Char⦄, EndsExpression rest → (body ++ rest).length < n →
    expression n (body ++ rest) = .done term rest

/-- The parser of a place gives back the term of a text. -/
def Reads : Level → Term → List Char → Prop
  | .access => ReadsAccess
  | .sum => ReadsSum
  | .expression => ReadsExpression

variable {term : Term} {body : List Char}

/-! ### Primaries -/

/-- A text that neither layout nor a parenthesis starts is read by its first character. -/
theorem primary_cons (hc : startsGap c = false) (hparen : c ≠ '(') :
    primary e fuel (c :: rest) =
      if isQuote c then (literal (c :: rest)).map fun value => .text (String.ofList value)
      else if c.isDigit || c == '-' then (integer (c :: rest)).map .int
      else (do reference e fuel (← name) : Parser Term) (c :: rest) := by
  rw [primary, skipLayout_cons hc]
  split
  · next h => cases h
  · next h => cases h; exact absurd rfl hparen
  · next h => cases h; rfl

theorem primary_text (value : String) (h : Boundary rest) :
    primary e fuel (quoted value.toList ++ rest) = .done (.text value) rest := by
  have hliteral : literal (quoted value.toList ++ rest) = .done value.toList rest :=
    literal_quoted h.head?_ne_quote
  show primary e fuel ('"' :: (value.toList.flatMap escaped ++ ['"']) ++ rest) = _
  rw [List.cons_append, primary_cons (by decide) (by decide), if_pos (by decide)]
  show Outcome.map _ (literal (quoted value.toList ++ rest)) = _
  rw [hliteral]
  simp [Outcome.map]

theorem primary_int (value : Int64) (h : Boundary rest) :
    primary e fuel ((Number.decimalInt value.toInt).toList ++ rest) = .done (.int value) rest := by
  have hdigit : ∀ c ∈ rest.head?, c.isDigit = false := by
    intro c hc
    have hother := (h c hc).1
    simp only [isIdentChar, Char.isAlphanum, Bool.or_eq_false_iff] at hother
    exact hother.1.2
  have hread := integer_append value hdigit
  obtain ⟨c, tail, hcons, hc⟩ := exists_cons_of_decimalInt value.toInt
  obtain ⟨hgap, hparen, hquote, -⟩ := of_startsInteger hc
  have hsign : (c.isDigit || c == '-') = true := by
    rcases hc with rfl | hc
    · rfl
    · simp [hc]
  rw [hcons, List.cons_append] at hread ⊢
  rw [primary_cons hgap hparen, hquote, hsign, hread]
  rfl

theorem primary_word {id : String} (hid : IsName id)
    (hrest : ∀ c ∈ rest.head?, isIdentChar c = false) :
    primary e fuel (id.toList ++ rest) = reference e fuel id rest := by
  have hname := name_append hid hrest
  obtain ⟨c, tail, hcons, hc, -⟩ := exists_cons_of_isIdentifier hid.1
  obtain ⟨hgap, hparen, -, hquote, hdigit⟩ := of_isIdentStart hc
  rw [hcons, List.cons_append] at hname ⊢
  rw [primary_cons hgap hparen, hquote, hdigit]
  simp only [Bool.false_eq_true, if_false, Parser.bind_apply, hname]

theorem reference_truthWord {value : Bool} {word : String} (hword : word ∈ truthWords value) :
    reference e fuel word rest = .done (.bool value) rest := by
  cases value with
  | true =>
    have htrue : word = "True" ∨ word = "true" := by simpa [truthWords] using hword
    exact if_pos htrue
  | false =>
    have hfalse : word = "False" ∨ word = "false" := by simpa [truthWords] using hword
    rcases hfalse with rfl | rfl <;> rfl

/-- A name that stands for no constant is left to what follows it. -/
theorem IsVariable.not_constant {id : String} (hid : IsVariable id) :
    ¬(id = "True" ∨ id = "true") ∧ ¬(id = "False" ∨ id = "false") ∧ id ≠ "None" := by
  simpa [truthWords] using hid.2

theorem reference_name {id : String} (hid : IsVariable id) (h : rest.head? ≠ some '!') :
    reference e fuel id rest = .done (.name id) rest := by
  obtain ⟨htrue, hfalse, hnone⟩ := hid.not_constant
  unfold reference
  rw [if_neg htrue, if_neg hfalse, if_neg hnone]
  split
  · exact absurd rfl h
  · rfl

theorem reference_macro {id : String} (hid : IsVariable id) (rest : List Char) :
    reference e fuel id ('!' :: '(' :: rest) = (arguments e fuel rest).map (.macroCall id) := by
  obtain ⟨htrue, hfalse, hnone⟩ := hid.not_constant
  unfold reference
  rw [if_neg htrue, if_neg hfalse, if_neg hnone]
  rfl

/-! ### Labels -/

/-- A text from which no label is taken, whatever follows other than an equals sign. -/
def Unlabelled (body : List Char) : Prop :=
  ∀ ⦃rest : List Char⦄, (∀ c ∈ rest.head?, isIdentChar c = false) →
    (skipLayout rest).head? ≠ some '=' → ∃ left, label name (body ++ rest) = .stuck left

theorem unlabelled_cons (hc : isIdentStart c = false) (rest : List Char) :
    Unlabelled (c :: rest) :=
  fun _ _ _ => ⟨_, label_stuck_of_stuck (name_stuck hc _)⟩

/-- A name is a label only in front of an equals sign. -/
theorem IsName.unlabelled {id : String} (hid : IsName id) : Unlabelled id.toList :=
  fun _ hrest hsign => ⟨_, label_stuck_of_done (name_append hid hrest) hsign⟩

/-- What is written after an unlabelled text does not make it a label, if it starts with no equals
sign. -/
theorem Unlabelled.append {text : List Char} (h : Unlabelled body)
    (htext : ∀ rest, (∀ c ∈ (text ++ rest).head?, isIdentChar c = false) ∧
      (skipLayout (text ++ rest)).head? ≠ some '=') :
    Unlabelled (body ++ text) := by
  intro rest _ _
  rw [List.append_assoc]
  exact h (htext rest).1 (htext rest).2

/-- A gap and a sign that is no equals sign. -/
theorem head_of_gap_sign (hgap : IsGap gap) (hc : isIdentChar c = false) (hstart : startsGap c = false)
    (hsign : c ≠ '=') (text rest : List Char) :
    (∀ d ∈ (gap ++ c :: text ++ rest).head?, isIdentChar d = false) ∧
      (skipLayout (gap ++ c :: text ++ rest)).head? ≠ some '=' := by
  rw [List.append_assoc, List.cons_append, skipLayout_gap_cons hgap hstart]
  refine ⟨?_, by simpa using hsign⟩
  rcases hgap.eq_nil_or_cons with rfl | ⟨d, tail, rfl, hd⟩
  · simpa using hc
  · intro d' hd'
    cases hd'
    exact (of_startsGap hd).1

/-- No text of a term starts with a label. -/
theorem Written.unlabelled {level : Level} (h : Written level term body) : Unlabelled body := by
  -- A label could only be the name at the start, and no term goes on with an equals sign.
  induction h with
  | text value => exact unlabelled_cons (by decide) _
  | int value =>
    obtain ⟨c, tail, hcons, hc⟩ := exists_cons_of_decimalInt value.toInt
    rw [hcons]
    exact unlabelled_cons (of_startsInteger hc).2.2.2 _
  | bool hword => exact (isName_of_mem_truthWords hword).unlabelled
  | none => exact IsName.unlabelled (by unfold IsName; decide)
  | name hid => exact hid.1.unlabelled
  | group | tuple => exact unlabelled_cons (by decide) _
  | macroCall hid =>
    exact hid.1.unlabelled.append (head_of_gap_sign .nil (by decide) (by decide) (by decide) _)
  | field _ hgap _ _ ih =>
    rw [List.append_assoc, List.append_assoc]
    exact ih.append (head_of_gap_sign hgap (by decide) (by decide) (by decide) _)
  | call _ hgap _ _ _ ih =>
    rw [List.append_assoc]
    exact ih.append (head_of_gap_sign hgap (by decide) (by decide) (by decide) _)
  | part _ ih | plain _ ih => exact ih
  | sum _ hne hgaps _ ih =>
    obtain ⟨p, parts, rfl⟩ := List.exists_cons_of_ne_nil hne
    have hgap : IsGap p.gap := (hgaps p List.mem_cons_self).1
    have hnext := head_of_gap_sign hgap (c := '+') (by decide) (by decide) (by decide)
      (p.after ++ p.body ++ parts.flatMap WrittenPart.text)
    exact ih.append (by simpa [WrittenPart.text] using hnext)
  | @conditional _ _ _ body test last beforeIf afterIf beforeElse afterElse _ _ _ hbreak _ _ _ ih =>
    have happend : Unlabelled (body ++ (beforeIf ++ ("if".toList ++ (afterIf ++ (test ++
        (beforeElse ++ ("else".toList ++ (afterElse ++ last)))))))) := by
      refine ih.append fun rest => ?_
      simp only [List.append_assoc]
      refine ⟨fun c hc => (boundary_break hbreak c hc).1, ?_⟩
      rw [skipLayout_gap hbreak.1]
      simp [skipLayout_cons (c := 'i') rfl]
    simpa only [List.append_assoc] using happend

/-! ### Items -/

theorem of_startsTerm (h : startsTerm c = true) : startsGap c = false ∧ c ≠ ')' := by
  have hne : ∀ d, startsTerm d = false → c ≠ d := fun _ hd => ne_of_test h hd
  refine ⟨?_, hne _ (by decide)⟩
  simp [startsGap, isSpace, hne ' ', hne '\t', hne '\r', hne '\n', hne '#', startsTerm, isIdentStart]

/-- Expressions are items of a list in parentheses. -/
theorem ReadsExpression.item (hwritten : Written .expression term body)
    (h : ReadsExpression term body) : ReadsItem (expression n) ')' n term body where
  start := by
    obtain ⟨c, tail, hbody, hc⟩ := hwritten.startsTerm
    exact ⟨c, tail, hbody, of_startsTerm hc⟩
  reads := fun hgap hd hlength => h (ends_of_separator hgap hd) hlength

/-- So are arguments, with a label or without one. -/
theorem ReadsExpression.argument {a : WrittenArgument}
    (hlabel : WrittenLabel a.argument.label a.label)
    (hwritten : Written .expression a.argument.value a.value)
    (h : ReadsExpression a.argument.value a.value) :
    ReadsItem (argument (expression n)) ')' n a.argument a.text := by
  obtain ⟨c, tail, hbody, hc⟩ := hwritten.startsTerm
  obtain ⟨⟨id?, value⟩, label, body⟩ := a
  cases hlabel with
  | positional =>
    refine ⟨⟨c, tail, hbody, of_startsTerm hc⟩, fun {gap d rest} hgap hd hlength => ?_⟩
    have hends : EndsExpression (gap ++ d :: rest) := ends_of_separator hgap hd
    have hsign : (skipLayout (gap ++ d :: rest)).head? ≠ some '=' := by
      rcases hd with rfl | rfl <;> rw [skipLayout_gap_cons hgap (by decide)] <;> simp
    obtain ⟨left, hstuck⟩ := hwritten.unlabelled (fun c hc => (hends.1.1 c hc).1) hsign
    show Grammar.argument (expression n) (body ++ (gap ++ d :: rest)) = _
    simp only [Grammar.argument, hstuck, h hends hlength, Outcome.map]
  | @labelled id front back hid hfront hback =>
    obtain ⟨d, more, hcons, hd, -⟩ := exists_cons_of_isIdentifier hid.1
    refine ⟨⟨d, _, by rw [WrittenArgument.text, hcons]; rfl,
      of_startsTerm (startsTerm_of_isIdentStart hd)⟩, fun {gap d rest} hgap hd hlength => ?_⟩
    -- Neither the gap after the equals sign nor the value starts with another one.
    have hsign : (back ++ (body ++ (gap ++ d :: rest))).head? ≠ some '=' := by
      rcases hback.eq_nil_or_cons with rfl | ⟨b, more, rfl, hb⟩
      · rw [show body = c :: tail from hbody]
        rintro ⟨⟩
        cases hc
      · rintro ⟨⟩
        cases hb
    have htext : id.toList ++ front ++ '=' :: back ++ body ++ (gap ++ d :: rest) =
        id.toList ++ (front ++ '=' :: (back ++ (body ++ (gap ++ d :: rest)))) := by simp
    have hshort : (body ++ (gap ++ d :: rest)).length < n := by
      simp [WrittenArgument.text] at hlength ⊢
      omega
    have hboundary : Boundary (front ++ '=' :: (back ++ (body ++ (gap ++ d :: rest)))) :=
      boundary_gap hfront (.cons rfl)
    have hlabel := label_done (name_append hid fun c hc => (hboundary c hc).1) hfront hsign
    show Grammar.argument (expression n)
      (id.toList ++ front ++ '=' :: back ++ body ++ (gap ++ d :: rest)) = _
    rw [htext]
    simp only [Grammar.argument, hlabel,
      expression_gap hback (Nat.zero_lt_of_lt hshort), h (ends_of_separator hgap hd) hshort,
      Outcome.map]

/-! ### Accesses -/

theorem ReadsAccess.of_primary
    (h : ∀ ⦃n fuel : Nat⦄ ⦃rest : List Char⦄, Boundary rest → (body ++ rest).length ≤ n →
      (body ++ rest).length < fuel →
      primary (expression n) fuel (body ++ rest) = .done term rest) : ReadsAccess term body := by
  intro n fuel rest hrest hn hfuel
  refine ⟨fuel, by simp at hfuel; omega, ?_⟩
  rw [access, Parser.bind_apply, h hrest hn hfuel]

/-- Parentheses around one expression change nothing. -/
theorem ReadsAccess.group {after : List Char} (hgap : IsGap gap) (hafter : IsGap after)
    (hwritten : Written .expression term body) (h : ReadsExpression term body) :
    ReadsAccess term ('(' :: gap ++ body ++ after ++ [')']) := by
  apply ReadsAccess.of_primary
  intro n fuel rest _ hn hfuel
  have hfuel' : (gap ++ body ++ after ++ [')'] ++ rest).length < fuel := by
    simp at hfuel ⊢
    omega
  have hn' : (gap ++ body ++ after ++ [')'] ++ rest).length < n := by
    simp at hn ⊢
    omega
  have hlist : separated ')' (expression n) fuel (gap ++ body ++ after ++ [')'] ++ rest) =
      .done ([term], false) rest :=
    separated_listed (.last hgap hafter) (by decide) (by decide) (.cons (h.item hwritten) .nil)
      hfuel' hn'
  show (separated ')' (expression n) fuel (gap ++ body ++ after ++ [')'] ++ rest)).map groupTerm = _
  rw [hlist]
  rfl

theorem groupTerm_eq_tuple {terms : List Term} {comma : Bool}
    (h : terms.length = 1 → comma = true) : groupTerm (terms, comma) = .tuple terms := by
  unfold groupTerm
  split
  · next heq => cases heq; cases h rfl
  · next heq => cases heq; rfl

theorem ReadsAccess.tuple {items : List (Term × List Char)} {comma : Bool} {list : List Char}
    (hwritten : ∀ i ∈ items, Written .expression i.1 i.2)
    (h : ∀ i ∈ items, ReadsExpression i.1 i.2) (hcomma : items.length = 1 → comma = true)
    (hlisted : Listed ')' (items.map Prod.snd) comma list) :
    ReadsAccess (.tuple (items.map Prod.fst)) ('(' :: list) := by
  apply ReadsAccess.of_primary
  intro n fuel rest _ hn hfuel
  -- What stands between the parentheses is a list of expressions, each read as an item.
  have hitems : List.Forall₂ (ReadsItem (expression n) ')' n) (items.map Prod.fst)
      (items.map Prod.snd) := by
    rw [List.forall₂_map_left_iff, List.forall₂_map_right_iff, List.forall₂_same]
    exact fun i hi => (h i hi).item (hwritten i hi)
  have hlist : separated ')' (expression n) fuel (list ++ rest) =
      .done (items.map Prod.fst, comma) rest :=
    separated_listed hlisted (by decide) (by decide) hitems (by simp at hfuel ⊢; omega)
      (by simp at hn ⊢; omega)
  show (separated ')' (expression n) fuel (list ++ rest)).map groupTerm = _
  rw [hlist]
  show Outcome.done (groupTerm (items.map Prod.fst, comma)) rest = _
  rw [groupTerm_eq_tuple (by simpa using hcomma)]

/-- The arguments of a call or of a macro. -/
theorem arguments_listed {written : List WrittenArgument} {comma : Bool} {list : List Char}
    (hlabel : ∀ a ∈ written, WrittenLabel a.argument.label a.label)
    (hwritten : ∀ a ∈ written, Written .expression a.argument.value a.value)
    (h : ∀ a ∈ written, ReadsExpression a.argument.value a.value)
    (hlisted : Listed ')' (written.map WrittenArgument.text) comma list)
    (hfuel : (list ++ rest).length < fuel) (hn : (list ++ rest).length < n) :
    arguments (expression n) fuel (list ++ rest) =
      .done (written.map WrittenArgument.argument) rest := by
  have hitems : List.Forall₂ (ReadsItem (argument (expression n)) ')' n)
      (written.map WrittenArgument.argument) (written.map WrittenArgument.text) := by
    rw [List.forall₂_map_left_iff, List.forall₂_map_right_iff, List.forall₂_same]
    exact fun a ha => (h a ha).argument (hlabel a ha) (hwritten a ha)
  rw [arguments, separated_listed hlisted (by decide) (by decide) hitems hfuel hn]
  rfl

theorem ReadsAccess.macroCall {id : String} {written : List WrittenArgument} {comma : Bool}
    {list : List Char} (hid : IsVariable id)
    (hlabel : ∀ a ∈ written, WrittenLabel a.argument.label a.label)
    (hwritten : ∀ a ∈ written, Written .expression a.argument.value a.value)
    (h : ∀ a ∈ written, ReadsExpression a.argument.value a.value)
    (hlisted : Listed ')' (written.map WrittenArgument.text) comma list) :
    ReadsAccess (.macroCall id (written.map WrittenArgument.argument))
      (id.toList ++ '!' :: '(' :: list) := by
  apply ReadsAccess.of_primary
  intro n fuel rest _ hn hfuel
  rw [List.append_assoc, primary_word hid.1 (by simp [isIdentChar]), List.cons_append,
    List.cons_append, reference_macro hid,
    arguments_listed hlabel hwritten h hlisted (by simp at hfuel ⊢; omega) (by simp at hn ⊢; omega)]
  rfl

/-- A field is read as the next step after its base. -/
theorem ReadsAccess.field {base : Term} {field : String} {after : List Char}
    (h : ReadsAccess base body) (hgap : IsGap gap) (hafter : IsGap after) (hfield : IsName field) :
    ReadsAccess (.attribute base field) (body ++ gap ++ '.' :: after ++ field.toList) := by
  intro n fuel rest hrest hn hfuel
  have hdot : Boundary (gap ++ '.' :: (after ++ (field.toList ++ rest))) :=
    boundary_gap hgap (.cons rfl)
  have htext : body ++ gap ++ '.' :: after ++ field.toList ++ rest =
      body ++ (gap ++ '.' :: (after ++ (field.toList ++ rest))) := by simp
  rw [htext] at hn hfuel ⊢
  -- The base is read up to the dot, and the loop over fields and calls goes on with that.
  obtain ⟨left, hleft, hread⟩ := h hdot hn hfuel
  obtain ⟨left, rfl⟩ := Nat.exists_eq_add_one_of_ne_zero (Nat.ne_zero_of_lt hleft)
  refine ⟨left, by simp at hleft; omega, ?_⟩
  have hname : layout (after ++ (field.toList ++ rest)) = .done () (field.toList ++ rest) := by
    obtain ⟨c, tail, hcons, hc⟩ := hfield.startsTerm
    rw [layout, hcons, List.cons_append, skipLayout_gap_cons hafter (of_startsTerm hc).1]
  rw [hread]
  simp only [accesses, skipLayout_gap_cons (c := '.') hgap (by decide), Parser.bind_apply, hname,
    name_append hfield fun c hc => (hrest c hc).1]

theorem ReadsAccess.call {function : Term} {written : List WrittenArgument} {comma : Bool}
    {list : List Char} (hfunction : ReadsAccess function body) (hgap : IsGap gap)
    (hlabel : ∀ a ∈ written, WrittenLabel a.argument.label a.label)
    (hwritten : ∀ a ∈ written, Written .expression a.argument.value a.value)
    (h : ∀ a ∈ written, ReadsExpression a.argument.value a.value)
    (hlisted : Listed ')' (written.map WrittenArgument.text) comma list) :
    ReadsAccess (.call function (written.map WrittenArgument.argument))
      (body ++ gap ++ '(' :: list) := by
  intro n fuel rest hrest hn hfuel
  have hparen : Boundary (gap ++ '(' :: (list ++ rest)) :=
    boundary_gap hgap (.cons rfl)
  have htext : body ++ gap ++ '(' :: list ++ rest = body ++ (gap ++ '(' :: (list ++ rest)) := by
    simp
  rw [htext] at hn hfuel ⊢
  -- The function is read first. What is left of the fuel is enough for the arguments and for what
  -- is accessed behind them.
  obtain ⟨left, hleft, hread⟩ := hfunction hparen hn hfuel
  obtain ⟨left, rfl⟩ := Nat.exists_eq_add_one_of_ne_zero (Nat.ne_zero_of_lt hleft)
  refine ⟨left, by simp at hleft; omega, ?_⟩
  rw [hread]
  simp only [accesses, skipLayout_gap_cons (c := '(') hgap (by decide)]
  rw [Parser.bind_apply, arguments_listed hlabel hwritten h hlisted (by simp at hleft ⊢; omega)
    (by simp at hn ⊢; omega)]

/-! ### Sums -/

theorem accesses_done {left : Nat} (hleft : 0 < left)
    (h : ∀ c ∈ (skipLayout rest).head?, c ≠ '.' ∧ c ≠ '(') :
    accesses e left term rest = .done term rest := by
  obtain ⟨left, rfl⟩ := Nat.exists_eq_add_one_of_ne_zero (Nat.ne_zero_of_lt hleft)
  unfold accesses
  split
  · next heq => rw [heq] at h; exact absurd rfl (h '.' rfl).1
  · next heq => rw [heq] at h; exact absurd rfl (h '(' rfl).2
  · rfl

/-- An access is over where neither a field nor a call follows. -/
theorem ReadsAccess.done (h : ReadsAccess term body) (hrest : Boundary rest)
    (hnext : ∀ c ∈ (skipLayout rest).head?, c ≠ '.' ∧ c ≠ '(')
    (hn : (body ++ rest).length ≤ n) (hfuel : (body ++ rest).length < fuel) :
    access (expression n) fuel (body ++ rest) = .done term rest := by
  obtain ⟨left, hleft, hread⟩ := h hrest hn hfuel
  rw [hread, accesses_done (Nat.zero_lt_of_lt hleft) hnext]

theorem summands_nil (hfuel : 0 < fuel) (h : ∀ c ∈ (skipLayout rest).head?, c ≠ '+') :
    summands e depth fuel rest = .done [] rest := by
  obtain ⟨fuel, rfl⟩ := Nat.exists_eq_add_one_of_ne_zero (Nat.ne_zero_of_lt hfuel)
  unfold summands
  split
  · next heq => rw [heq] at h; exact absurd rfl (h '+' rfl)
  · rfl

/-- What follows a part of a sum: another part, or the end of the sum. -/
theorem boundary_parts {parts : List WrittenPart} (hgaps : ∀ p ∈ parts, IsGap p.gap ∧ IsGap p.after)
    (hrest : EndsSum rest) : Boundary (parts.flatMap WrittenPart.text ++ rest) ∧
      ∀ c ∈ (skipLayout (parts.flatMap WrittenPart.text ++ rest)).head?, c ≠ '.' ∧ c ≠ '(' := by
  cases parts with
  | nil => exact ⟨hrest.1, fun c hc => ⟨(hrest.2 c hc).1, (hrest.2 c hc).2.1⟩⟩
  | cons p parts =>
    have hgap : IsGap p.gap := (hgaps p List.mem_cons_self).1
    have htext : (p :: parts).flatMap WrittenPart.text ++ rest = p.gap ++ '+' :: (p.after ++
        (p.body ++ (parts.flatMap WrittenPart.text ++ rest))) := by simp [WrittenPart.text]
    rw [htext, skipLayout_gap_cons hgap (by decide)]
    refine ⟨boundary_gap hgap (.cons rfl), ?_⟩
    rintro c ⟨⟩
    decide

/-- The loop over the further parts of a sum. -/
theorem summands_parts {parts : List WrittenPart} (hgaps : ∀ p ∈ parts, IsGap p.gap ∧ IsGap p.after)
    (h : ∀ p ∈ parts, ReadsAccess p.term p.body) (hrest : EndsSum rest)
    (hn : (parts.flatMap WrittenPart.text ++ rest).length ≤ n)
    (hdepth : (parts.flatMap WrittenPart.text ++ rest).length < depth)
    (hfuel : (parts.flatMap WrittenPart.text ++ rest).length < fuel) :
    summands (expression n) depth fuel (parts.flatMap WrittenPart.text ++ rest) =
      .done (parts.map WrittenPart.term) rest := by
  -- Each part ends where the next one, or the end of the sum, begins (`boundary_parts`).
  induction parts generalizing fuel with
  | nil =>
    exact summands_nil (Nat.zero_lt_of_lt hfuel) fun c hc => (hrest.2 c hc).2.2
  | cons p parts ih =>
    rw [List.forall_mem_cons] at hgaps h
    have htext : (p :: parts).flatMap WrittenPart.text ++ rest = p.gap ++ '+' :: (p.after ++
        (p.body ++ (parts.flatMap WrittenPart.text ++ rest))) := by simp [WrittenPart.text]
    rw [htext] at hn hdepth hfuel ⊢
    simp only [List.length_append, List.length_cons] at hn hdepth hfuel
    obtain ⟨fuel, rfl⟩ := Nat.exists_eq_add_one_of_ne_zero (Nat.ne_zero_of_lt hfuel)
    obtain ⟨hboundary, hnext⟩ := boundary_parts hgaps.2 hrest
    have haccess : access (expression n) depth
        (p.body ++ (parts.flatMap WrittenPart.text ++ rest)) = .done p.term _ :=
      h.1.done hboundary hnext (by simp only [List.length_append]; omega)
        (by simp only [List.length_append]; omega)
    have hmore : summands (expression n) depth fuel (parts.flatMap WrittenPart.text ++ rest) =
        .done (parts.map WrittenPart.term) rest :=
      ih hgaps.2 h.2 (by simp only [List.length_append]; omega)
        (by simp only [List.length_append]; omega) (by simp only [List.length_append]; omega)
    simp only [summands, skipLayout_gap_cons (c := '+') hgaps.1.1 (by decide), Parser.bind_apply,
      access_gap hgaps.1.2, haccess, hmore]
    rfl

theorem ReadsSum.part (h : ReadsAccess term body) : ReadsSum term body := by
  intro n fuel rest hrest hn hfuel
  have haccess := h.done hrest.1 (fun c hc => ⟨(hrest.2 c hc).1, (hrest.2 c hc).2.1⟩) hn hfuel
  have hnone : summands (expression n) fuel fuel rest = .done [] rest :=
    summands_nil (Nat.zero_lt_of_lt hfuel) fun c hc => (hrest.2 c hc).2.2
  simp only [sum, Parser.bind_apply, haccess, hnone]
  rfl

theorem ReadsSum.sum {parts : List WrittenPart} (h : ReadsAccess term body) (hne : parts ≠ [])
    (hgaps : ∀ p ∈ parts, IsGap p.gap ∧ IsGap p.after)
    (hparts : ∀ p ∈ parts, ReadsAccess p.term p.body) :
    ReadsSum (.sum (term :: parts.map WrittenPart.term))
      (body ++ parts.flatMap WrittenPart.text) := by
  intro n fuel rest hrest hn hfuel
  rw [List.append_assoc] at hn hfuel ⊢
  obtain ⟨hboundary, hnext⟩ := boundary_parts hgaps hrest
  have haccess := h.done hboundary hnext hn hfuel
  rw [List.length_append] at hn hfuel
  have hmore : summands (expression n) fuel fuel (parts.flatMap WrittenPart.text ++ rest) =
      .done (parts.map WrittenPart.term) rest :=
    summands_parts hgaps hparts hrest (by omega) (by omega) (by omega)
  simp only [Grammar.sum, Parser.bind_apply, haccess, hmore]
  show Outcome.done (sumTerm term (parts.map WrittenPart.term)) rest = _
  obtain ⟨p, parts, rfl⟩ := List.exists_cons_of_ne_nil hne
  rfl

/-! ### Expressions -/

/-- A word after a gap is left, and after a break it ends a sum. -/
theorem endsSum_word {word : List Char} (hgap : IsBreak gap)
    (hword : ∃ c tail, word = c :: tail ∧ isIdentStart c = true) :
    skipLayout (gap ++ (word ++ rest)) = word ++ rest ∧ EndsSum (gap ++ (word ++ rest)) := by
  obtain ⟨c, tail, rfl, hc⟩ := hword
  have hskip : skipLayout (gap ++ (c :: tail ++ rest)) = c :: tail ++ rest :=
    skipLayout_gap_cons hgap.1 (of_isIdentStart hc).1
  refine ⟨hskip, boundary_break hgap, ?_⟩
  rw [hskip]
  rintro d ⟨⟩
  exact ⟨ne_of_test hc rfl, ne_of_test hc rfl, ne_of_test hc rfl⟩

theorem ReadsExpression.plain (h : ReadsSum term body) : ReadsExpression term body := by
  intro n rest hrest hn
  obtain ⟨n, rfl⟩ := Nat.exists_eq_add_one_of_ne_zero (Nat.ne_zero_of_lt hn)
  have hsum := h hrest.1 (Nat.le_of_lt_succ hn) hn
  simp only [expression, choice, hsum, hrest.2]

theorem ReadsExpression.conditional {thenBranch condition otherwise : Term}
    {body test last beforeIf afterIf beforeElse afterElse : List Char}
    (hthen : ReadsSum thenBranch body) (hcondition : ReadsSum condition test)
    (hotherwise : ReadsExpression otherwise last) (hbeforeIf : IsBreak beforeIf)
    (hafterIf : IsBreak afterIf) (hbeforeElse : IsBreak beforeElse) (hafterElse : IsBreak afterElse) :
    ReadsExpression (.conditional thenBranch condition otherwise)
      (body ++ beforeIf ++ "if".toList ++ afterIf ++ test ++
        beforeElse ++ "else".toList ++ afterElse ++ last) := by
  intro n rest hrest hn
  obtain ⟨n, rfl⟩ := Nat.exists_eq_add_one_of_ne_zero (Nat.ne_zero_of_lt hn)
  -- The text from each of the two words on.
  obtain ⟨fromElse, hfromElse⟩ : ∃ text, text = afterElse ++ (last ++ rest) := ⟨_, rfl⟩
  obtain ⟨fromIf, hfromIf⟩ : ∃ text, text =
      afterIf ++ (test ++ (beforeElse ++ ("else".toList ++ fromElse))) := ⟨_, rfl⟩
  have htext : body ++ beforeIf ++ "if".toList ++ afterIf ++ test ++ beforeElse ++ "else".toList ++
      afterElse ++ last ++ rest = body ++ (beforeIf ++ ("if".toList ++ fromIf)) := by
    simp [hfromIf, hfromElse]
  rw [htext] at hn ⊢
  have hlength : fromElse.length < n ∧
      (test ++ (beforeElse ++ ("else".toList ++ fromElse))).length < n := by
    simp only [hfromIf, hfromElse, List.length_append] at hn ⊢
    have : "else".toList.length = 4 := rfl
    have : "if".toList.length = 2 := rfl
    omega
  obtain ⟨hskipIf, hendsIf⟩ : skipLayout (beforeIf ++ ("if".toList ++ fromIf)) =
      "if".toList ++ fromIf ∧ EndsSum (beforeIf ++ ("if".toList ++ fromIf)) :=
    endsSum_word hbeforeIf ⟨'i', ['f'], rfl, rfl⟩
  obtain ⟨hskipElse, hendsElse⟩ : skipLayout (beforeElse ++ ("else".toList ++ fromElse)) =
      "else".toList ++ fromElse ∧ EndsSum (beforeElse ++ ("else".toList ++ fromElse)) :=
    endsSum_word hbeforeElse ⟨'e', ['l', 's', 'e'], rfl, rfl⟩
  have hfirst : sum (expression n) (n + 1) (body ++ (beforeIf ++ ("if".toList ++ fromIf))) =
      .done thenBranch (beforeIf ++ ("if".toList ++ fromIf)) :=
    hthen hendsIf (Nat.le_of_lt_succ hn) hn
  have hif : afterWord? "if" (skipLayout (beforeIf ++ ("if".toList ++ fromIf))) = some fromIf := by
    rw [hskipIf, hfromIf]
    exact afterWord?_append fun c hc => (boundary_break hafterIf c hc).1
  have hsecond : sum (expression n) (n + 1) fromIf =
      .done condition (beforeElse ++ ("else".toList ++ fromElse)) := by
    rw [hfromIf, sum_gap hafterIf.1]
    exact hcondition hendsElse (Nat.le_of_lt hlength.2) (Nat.lt_succ_of_lt hlength.2)
  have helse : word "else" (skipLayout (beforeElse ++ ("else".toList ++ fromElse))) =
      .done () fromElse := by
    rw [hskipElse, word, hfromElse,
      afterWord?_append fun c hc => (boundary_break hafterElse c hc).1]
  have hthird : expression n fromElse = .done otherwise rest := by
    rw [hfromElse, expression_gap hafterElse.1 (Nat.zero_lt_of_lt hlength.1)]
    refine hotherwise hrest ?_
    rw [hfromElse, List.length_append] at hlength
    omega
  simp only [expression, choice, hfirst, hif, Parser.bind_apply, hsecond, layout, helse, hthird]
  rfl

/-- Every text is read as the term that it was written for. -/
theorem Written.reads {level : Level} (h : Written level term body) : Reads level term body := by
  -- The lemmas above are the cases: tokens first, then accesses, sums and expressions.
  induction h with
  | text value => exact ReadsAccess.of_primary fun _ _ _ hrest _ _ => primary_text value hrest
  | int value => exact ReadsAccess.of_primary fun _ _ _ hrest _ _ => primary_int value hrest
  | bool hword =>
    apply ReadsAccess.of_primary
    intro n fuel rest hrest _ _
    rw [primary_word (isName_of_mem_truthWords hword) fun c hc => (hrest c hc).1,
      reference_truthWord hword]
  | none =>
    apply ReadsAccess.of_primary
    intro n fuel rest hrest _ _
    rw [primary_word (by unfold IsName; decide) fun c hc => (hrest c hc).1]
    rfl
  | name hid =>
    apply ReadsAccess.of_primary
    intro n fuel rest hrest _ _
    rw [primary_word hid.1 fun c hc => (hrest c hc).1,
      reference_name hid fun hhead => (hrest '!' hhead).2.2 rfl]
  | group hgap hafter hwritten ih => exact ReadsAccess.group hgap hafter hwritten ih
  | tuple hwritten hcomma hlisted ih => exact ReadsAccess.tuple hwritten ih hcomma hlisted
  | macroCall hid hlabel hwritten hlisted ih =>
    exact ReadsAccess.macroCall hid hlabel hwritten ih hlisted
  | field _ hgap hafter hfield ih => exact ReadsAccess.field ih hgap hafter hfield
  | call _ hgap hlabel hwritten hlisted ih iharguments =>
    exact ReadsAccess.call ih hgap hlabel hwritten iharguments hlisted
  | part _ ih => exact ReadsSum.part ih
  | sum _ hne hgaps _ ih ihparts => exact ReadsSum.sum ih hne hgaps ihparts
  | plain _ ih => exact ReadsExpression.plain ih
  | conditional _ _ _ hbeforeIf hafterIf hbeforeElse hafterElse ihthen ihcondition ihotherwise =>
    exact ReadsExpression.conditional ihthen ihcondition ihotherwise hbeforeIf hafterIf hbeforeElse
      hafterElse

end Cookbook
