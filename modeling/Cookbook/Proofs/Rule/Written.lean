import Mathlib.Tactic.Choose
import Cookbook.Proofs.Rule.Tokens

/-!
# How terms are written

A term has many texts: parentheses may stand around every part and layout between any two tokens,
and what a part must be so that it needs no parentheses depends on where it stands. `Written` says
which texts these are, without reference to the grammar's parser.

## Main definitions

* `Written`: the texts of a term, by the place in which it stands.
* `WrittenRule`: the texts of a rule, from the word `lambda` on.

## Main results

* `exists_written`: every writable term has a text.
* `Written.startsTerm`: a text starts with the first character of a token.
-/

namespace Cookbook

open Cookbook.Text

/-! ## Lists -/

/-- A text before the closing character: the given parts with commas between them, and a last comma
or none. The truth value tells whether a comma or nothing stands before the closing character. -/
inductive Listed (close : Char) : List (List Char) → Bool → List Char → Prop where
  | nil {gap : List Char} : IsGap gap → Listed close [] true (gap ++ [close])
  | last {gap part after : List Char} : IsGap gap → IsGap after →
      Listed close [part] false (gap ++ part ++ after ++ [close])
  | cons {gap part after tail : List Char} {parts : List (List Char)} {comma : Bool} :
      IsGap gap → IsGap after → Listed close parts comma tail →
      Listed close (part :: parts) comma (gap ++ part ++ after ++ ',' :: tail)

/-! ## Terms -/

/-- An argument with the texts of its label and of its value. -/
structure WrittenArgument where
  argument : Argument Term
  label : List Char
  value : List Char

def WrittenArgument.text (a : WrittenArgument) : List Char :=
  a.label ++ a.value

/-- A further part of a sum with its text and the gaps on both sides of the plus sign. -/
structure WrittenPart where
  term : Term
  gap : List Char
  after : List Char
  body : List Char

def WrittenPart.text (p : WrittenPart) : List Char :=
  p.gap ++ '+' :: p.after ++ p.body

/-- The places of a term: in front of a dot, as a part of a sum or branch of a choice, anywhere. -/
inductive Level where
  | access
  | sum
  | expression

/-- The texts of a term in a place. Whatever a place does not allow stands there in parentheses. -/
inductive Written : Level → Term → List Char → Prop where
  -- Tokens.
  | text (value : String) : Written .access (.text value) (quoted value.toList)
  | int (value : Int64) : Written .access (.int value) (Number.decimalInt value.toInt).toList
  | bool {value : Bool} {word : String} : word ∈ truthWords value →
      Written .access (.bool value) word.toList
  | none : Written .access .none "None".toList
  | name {id : String} : IsVariable id → Written .access (.name id) id.toList
  -- Parentheses around one expression, and what ends with a list in parentheses.
  | group {term : Term} {gap body after : List Char} : IsGap gap → IsGap after →
      Written .expression term body → Written .access term ('(' :: gap ++ body ++ after ++ [')'])
  /-- A tuple of one item needs a comma after it. -/
  | tuple {items : List (Term × List Char)} {comma : Bool} {list : List Char} :
      (∀ i ∈ items, Written .expression i.1 i.2) → (items.length = 1 → comma = true) →
      Listed ')' (items.map Prod.snd) comma list →
      Written .access (.tuple (items.map Prod.fst)) ('(' :: list)
  | macroCall {id : String} {arguments : List WrittenArgument} {comma : Bool} {list : List Char} :
      IsVariable id → (∀ a ∈ arguments, WrittenLabel a.argument.label a.label) →
      (∀ a ∈ arguments, Written .expression a.argument.value a.value) →
      Listed ')' (arguments.map WrittenArgument.text) comma list →
      Written .access (.macroCall id (arguments.map WrittenArgument.argument))
        (id.toList ++ '!' :: '(' :: list)
  | field {base : Term} {field : String} {body gap after : List Char} :
      Written .access base body → IsGap gap → IsGap after → IsName field →
      Written .access (.attribute base field) (body ++ gap ++ '.' :: after ++ field.toList)
  | call {function : Term} {arguments : List WrittenArgument} {body gap list : List Char}
      {comma : Bool} :
      Written .access function body → IsGap gap →
      (∀ a ∈ arguments, WrittenLabel a.argument.label a.label) →
      (∀ a ∈ arguments, Written .expression a.argument.value a.value) →
      Listed ')' (arguments.map WrittenArgument.text) comma list →
      Written .access (.call function (arguments.map WrittenArgument.argument))
        (body ++ gap ++ '(' :: list)
  -- A sum of accesses, which a plus sign ends.
  | part {term : Term} {body : List Char} : Written .access term body → Written .sum term body
  | sum {first : Term} {body : List Char} {parts : List WrittenPart} :
      Written .access first body → parts ≠ [] →
      (∀ p ∈ parts, IsGap p.gap ∧ IsGap p.after) →
      (∀ p ∈ parts, Written .access p.term p.body) →
      Written .sum (.sum (first :: parts.map WrittenPart.term))
        (body ++ parts.flatMap WrittenPart.text)
  -- The branch behind `else` may be a choice again, the others only in parentheses.
  | plain {term : Term} {body : List Char} : Written .sum term body →
      Written .expression term body
  | conditional {thenBranch condition otherwise : Term}
      {body test last beforeIf afterIf beforeElse afterElse : List Char} :
      Written .sum thenBranch body → Written .sum condition test →
      Written .expression otherwise last →
      IsBreak beforeIf → IsBreak afterIf → IsBreak beforeElse → IsBreak afterElse →
      Written .expression (.conditional thenBranch condition otherwise)
        (body ++ beforeIf ++ "if".toList ++ afterIf ++ test ++
          beforeElse ++ "else".toList ++ afterElse ++ last)

/-- The texts of a rule. Something stands between the word `lambda` and the first formal. -/
inductive WrittenRule (formals : List String) (term : Term) : List Char → Prop where
  | intro {list gap body after : List Char} {comma : Bool} :
      Listed ':' (formals.map String.toList) comma list →
      (formals ≠ [] → ∃ c rest, list = c :: rest ∧ startsGap c = true) →
      IsGap gap → Written .expression term body → IsGap after →
      WrittenRule formals term ("lambda".toList ++ list ++ gap ++ body ++ after)

/-! ## Which terms can be written -/

/-- The terms whose names are names and whose sums have two parts or more. -/
inductive Term.Writable : Term → Prop where
  | text (value : String) : (Term.text value).Writable
  | int (value : Int64) : (Term.int value).Writable
  | bool (value : Bool) : (Term.bool value).Writable
  | none : Term.none.Writable
  | name {id : String} : IsVariable id → (Term.name id).Writable
  | field {base : Term} {field : String} : base.Writable → IsName field →
      (Term.attribute base field).Writable
  | call {function : Term} {arguments : List (Argument Term)} : function.Writable →
      (∀ a ∈ arguments, ∀ id ∈ a.label, IsName id) → (∀ a ∈ arguments, a.value.Writable) →
      (Term.call function arguments).Writable
  | macroCall {id : String} {arguments : List (Argument Term)} : IsVariable id →
      (∀ a ∈ arguments, ∀ id ∈ a.label, IsName id) → (∀ a ∈ arguments, a.value.Writable) →
      (Term.macroCall id arguments).Writable
  | sum {parts : List Term} : 2 ≤ parts.length → (∀ p ∈ parts, p.Writable) →
      (Term.sum parts).Writable
  | conditional {thenBranch condition otherwise : Term} : thenBranch.Writable →
      condition.Writable → otherwise.Writable →
      (Term.conditional thenBranch condition otherwise).Writable
  | tuple {items : List Term} : (∀ i ∈ items, i.Writable) → (Term.tuple items).Writable

variable {term : Term} {close : Char}

/-- Any parts can be listed, each with a comma after it. -/
theorem exists_listed (close : Char) (parts : List (List Char)) :
    ∃ list, Listed close parts true list := by
  induction parts with
  | nil => exact ⟨_, .nil .nil⟩
  | cons part parts ih =>
    obtain ⟨list, hlist⟩ := ih
    exact ⟨_, .cons .nil .nil hlist⟩

/-- In parentheses a term can stand anywhere. -/
theorem Written.exists_access {body : List Char} (h : Written .expression term body) :
    ∃ grouped, Written .access term grouped :=
  ⟨_, .group .nil .nil h⟩

theorem Written.expression_of_access {body : List Char} (h : Written .access term body) :
    Written .expression term body :=
  .plain (.part h)

/-- The arguments of a call can be written if their values can. -/
theorem exists_writtenArguments {arguments : List (Argument Term)}
    (hlabel : ∀ a ∈ arguments, ∀ id ∈ a.label, IsName id)
    (hvalue : ∀ a ∈ arguments, ∃ body, Written .expression a.value body) :
    ∃ written : List WrittenArgument, written.map WrittenArgument.argument = arguments ∧
      (∀ a ∈ written, WrittenLabel a.argument.label a.label) ∧
      ∀ a ∈ written, Written .expression a.argument.value a.value := by
  induction arguments with
  | nil => exact ⟨[], rfl, by simp, by simp⟩
  | cons a arguments ih =>
    rw [List.forall_mem_cons] at hlabel hvalue
    obtain ⟨written, rfl, hlabels, hvalues⟩ := ih hlabel.2 hvalue.2
    obtain ⟨body, hbody⟩ := hvalue.1
    have hwritten : ∃ label, WrittenLabel a.label label := by
      cases hid : a.label with
      | none => exact ⟨_, .positional⟩
      | some id => exact ⟨_, .labelled (hlabel.1 id hid) .nil .nil⟩
    obtain ⟨label, hlabel⟩ := hwritten
    exact ⟨⟨a, label, body⟩ :: written, rfl, List.forall_mem_cons.mpr ⟨hlabel, hlabels⟩,
      List.forall_mem_cons.mpr ⟨hbody, hvalues⟩⟩

/-- Every writable term has a text. -/
theorem exists_written (h : term.Writable) : ∃ body, Written .expression term body := by
  induction h with
  | text value => exact ⟨_, .expression_of_access (.text value)⟩
  | int value => exact ⟨_, .expression_of_access (.int value)⟩
  | bool value =>
    have hword : (truthWords value).head! ∈ truthWords value := by cases value <;> decide
    exact ⟨_, .expression_of_access (.bool hword)⟩
  | none => exact ⟨_, .expression_of_access .none⟩
  | name hid => exact ⟨_, .expression_of_access (.name hid)⟩
  | field _ hfield ih =>
    obtain ⟨body, hbody⟩ := ih
    obtain ⟨grouped, hgrouped⟩ := hbody.exists_access
    exact ⟨_, .expression_of_access (.field hgrouped .nil .nil hfield)⟩
  | call _ hlabel _ ih ihvalue =>
    obtain ⟨body, hbody⟩ := ih
    obtain ⟨grouped, hgrouped⟩ := hbody.exists_access
    obtain ⟨written, rfl, hlabels, hvalues⟩ := exists_writtenArguments hlabel ihvalue
    obtain ⟨list, hlist⟩ := exists_listed ')' (written.map WrittenArgument.text)
    exact ⟨_, .expression_of_access (.call hgrouped .nil hlabels hvalues hlist)⟩
  | macroCall hid hlabel _ ihvalue =>
    obtain ⟨written, rfl, hlabels, hvalues⟩ := exists_writtenArguments hlabel ihvalue
    obtain ⟨list, hlist⟩ := exists_listed ')' (written.map WrittenArgument.text)
    exact ⟨_, .expression_of_access (.macroCall hid hlabels hvalues hlist)⟩
  | @sum parts hlength _ ih =>
    -- Every part is written in parentheses, whether it needs them or not.
    choose! body hbody using fun p hp => (ih p hp).elim fun _ h => h.exists_access
    obtain ⟨first, second, more, rfl⟩ : ∃ first second more, parts = first :: second :: more := by
      match parts, hlength with
      | first :: second :: more, _ => exact ⟨first, second, more, rfl⟩
    rw [List.forall_mem_cons] at hbody
    let written : List WrittenPart := (second :: more).map fun p => ⟨p, [], [], body p⟩
    have hterms : written.map WrittenPart.term = second :: more := by
      simp [written, Function.comp_def]
    have hsum : Written .sum (.sum (first :: written.map WrittenPart.term)) _ :=
      .sum hbody.1 (by simp [written]) (by simp [written, IsGap.nil])
        (by simpa [written] using hbody.2)
    exact ⟨_, .plain (hterms ▸ hsum)⟩
  | conditional _ _ _ ihthen ihcondition ihotherwise =>
    obtain ⟨one, hone⟩ := ihthen
    obtain ⟨two, htwo⟩ := ihcondition
    obtain ⟨three, hthree⟩ := ihotherwise
    obtain ⟨grouped, hgrouped⟩ := hone.exists_access
    obtain ⟨test, htest⟩ := htwo.exists_access
    have hspace : IsBreak [' '] := ⟨.blank, by simp⟩
    exact ⟨_, .conditional (.part hgrouped) (.part htest) hthree hspace hspace hspace hspace⟩
  | @tuple items _ ih =>
    choose! body hbody using ih
    let written : List (Term × List Char) := items.map fun i => (i, body i)
    have hterms : written.map Prod.fst = items := by
      simp [written, Function.comp_def]
    -- The comma behind the last item makes a tuple of one.
    obtain ⟨list, hlist⟩ := exists_listed ')' (written.map Prod.snd)
    have htuple : Written .access (.tuple (written.map Prod.fst)) _ :=
      .tuple (by simpa [written] using hbody) (fun _ => rfl) hlist
    exact ⟨_, .expression_of_access (hterms ▸ htuple)⟩

/-- Every rule over writable terms has a text. -/
theorem exists_writtenRule (formals : List String) (h : term.Writable) :
    ∃ text, WrittenRule formals term text := by
  obtain ⟨body, hbody⟩ := exists_written h
  cases formals with
  | nil => exact ⟨_, .intro (.nil .nil) (by simp) .nil hbody .nil⟩
  | cons formal formals =>
    obtain ⟨list, hlist⟩ := exists_listed ':' (formals.map String.toList)
    exact ⟨_, .intro (.cons .blank .nil hlist) (fun _ => ⟨' ', _, rfl, rfl⟩) .nil hbody .nil⟩

/-! ## How a text starts -/

/-- The characters with which the text of a term may start. -/
def startsTerm (c : Char) : Bool :=
  c == '"' || c == '(' || c == '-' || c.isDigit || isIdentStart c

theorem startsTerm_of_isIdentStart {c : Char} (h : isIdentStart c = true) :
    startsTerm c = true := by
  simp [startsTerm, h]

theorem startsTerm_of_startsInteger {c : Char} (h : c = '-' ∨ c.isDigit = true) :
    startsTerm c = true := by
  rcases h with rfl | h
  · rfl
  · simp [startsTerm, h]

theorem IsName.startsTerm {id : String} (h : IsName id) :
    ∃ c rest, id.toList = c :: rest ∧ startsTerm c = true := by
  obtain ⟨c, rest, hid, hc, -⟩ := exists_cons_of_isIdentifier h.1
  exact ⟨c, rest, hid, startsTerm_of_isIdentStart hc⟩

/-- A text starts with the first character of a token. -/
theorem Written.startsTerm {level : Level} {body : List Char} (h : Written level term body) :
    ∃ c rest, body = c :: rest ∧ startsTerm c = true := by
  induction h with
  | text value => exact ⟨'"', _, rfl, rfl⟩
  | int value =>
    obtain ⟨c, rest, hcons, hc⟩ := exists_cons_of_decimalInt value.toInt
    exact ⟨c, rest, hcons, startsTerm_of_startsInteger hc⟩
  | bool hword => exact (isName_of_mem_truthWords hword).startsTerm
  | none => exact ⟨'N', _, rfl, by decide⟩
  | name hid => exact hid.1.startsTerm
  | group | tuple => exact ⟨'(', _, rfl, rfl⟩
  | macroCall hid =>
    obtain ⟨c, rest, hname, hc⟩ := hid.1.startsTerm
    exact ⟨c, _, by rw [hname]; rfl, hc⟩
  | part _ ih | plain _ ih => exact ih
  | field _ _ _ _ ih | call _ _ _ _ _ ih | sum _ _ _ _ ih | conditional _ _ _ _ _ _ _ ih =>
    obtain ⟨c, rest, rfl, hc⟩ := ih
    exact ⟨c, _, rfl, hc⟩

end Cookbook
