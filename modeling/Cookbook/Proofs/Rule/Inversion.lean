import Cookbook.Proofs.Except
import Cookbook.Proofs.Template.Filling

/-!
# What a lowered term says about the term

A term that has an expression is one of the supported constructs. For each function that gives
terms their expressions there is one inversion lemma; it says everything that a success does, so
later proofs do not open these functions again.

## Main results

* `lowerDotted_inv`, `lowerFormat_inv`, `lowerPrimitive_inv`, `lowerCall_inv`, `lowerMacro_inv`,
  `lowerTuple_inv`: the inversion lemmas.
* `pieces_lowerParts`: the template that is made for a sum is read back as the parts of the sum.
-/

namespace Cookbook.Rule

open Cookbook.Text

variable {formals : List String} {expression : Expression}

/-! ## Terms with their expressions -/

theorem lowerArguments_eq_map (formals : List String) (arguments : List (Argument Term)) :
    lowerArguments formals arguments =
      arguments.map (Argument.map fun term => ⟨term, lower formals term⟩) := by
  induction arguments with
  | nil => rfl
  | cons a arguments ih => rw [lowerArguments, ih, List.map_cons, Argument.map]

theorem lowerTerms_eq_map (formals : List String) (terms : List Term) :
    lowerTerms formals terms = terms.map fun term => ⟨term, lower formals term⟩ := by
  induction terms with
  | nil => rfl
  | cons term terms ih => rw [lowerTerms, ih, List.map_cons]

/-! ## Fields -/

/-- A dotted name that has an expression starts with a formal other than the context. -/
theorem lowerDotted_inv {term : Term} (h : lowerDotted formals term = .ok expression) :
    ∃ base path, dotted? term = some (base, path) ∧ base ∈ formals ∧ base ≠ contextName ∧
      expression = .field base path := by
  unfold lowerDotted at h
  split at h
  · cases h
  · next base path hdotted =>
    split at h
    · cases h
    · next hcontext =>
      split at h
      · next hbase =>
        cases h
        refine ⟨base, path, hdotted, hbase, fun heq => ?_, rfl⟩
        exact hcontext ⟨heq, heq ▸ hbase⟩
      · cases h

/-! ## Templates -/

/-- A template that has an expression is well formed, its arguments have expressions, and they fill
its placeholders. -/
theorem lowerFormat_inv {template : String} {arguments : List (Argument Lowered)}
    (h : lowerFormat template arguments = .ok expression) :
    ∃ pieces lowered, Template.parse template = .ok pieces ∧
      List.Forall₂ (fun a b => a.label = b.label ∧ a.value.expression = .ok b.value)
        arguments lowered ∧
      Template.Filled (lowered.map (·.label)) 0 pieces ∧ expression = .format template lowered := by
  unfold lowerFormat at h
  split at h
  · cases h
  · next pieces hparse =>
    obtain ⟨lowered, hlowered, h⟩ := bind_eq_ok_iff.mp h
    split at h
    · cases h
    · next hneed =>
      cases h
      refine ⟨pieces, lowered, hparse, ?_, ?_, rfl⟩
      · refine (mapM_eq_ok_iff.mp hlowered).imp fun a b hab => ?_
        obtain ⟨value, hvalue, hb⟩ := bind_eq_ok_iff.mp hab
        cases hb
        exact ⟨rfl, hvalue⟩
      · -- The compiler looks at the lowered arguments, which have the labels that were written.
        rw [Template.length_positionals] at hneed
        apply (Template.firstNeed_eq_none_iff (Nat.zero_le _)).mp
        rwa [List.filterMap_map]

/-! ## Sums -/

section LowerParts

variable {part : Lowered} {parts : List Lowered} {template : List Char}
  {arguments : List (Argument Expression)}

/-- A literal in a sum goes into the template. -/
theorem lowerParts_text_inv {s : String} {written : Except Construct Expression}
    (h : lowerParts (⟨.text s, written⟩ :: parts) = .ok (template, arguments)) :
    ∃ rest, lowerParts parts = .ok (rest, arguments) ∧
      template = (Template.escape s).toList ++ rest := by
  rw [lowerParts] at h
  obtain ⟨⟨rest, others⟩, hrest, h⟩ := bind_eq_ok_iff.mp h
  obtain ⟨rfl, rfl⟩ := Prod.mk.inj (Except.ok.inj h)
  exact ⟨rest, hrest, rfl⟩

/-- Every other part becomes an argument. -/
theorem lowerParts_argument_inv (hpart : ∀ s written, part ≠ ⟨.text s, written⟩)
    (h : lowerParts (part :: parts) = .ok (template, arguments)) :
    ∃ value rest others, part.expression = .ok value ∧ lowerParts parts = .ok (rest, others) ∧
      template = '{' :: '}' :: rest ∧ arguments = ⟨none, value⟩ :: others := by
  rw [lowerParts.eq_3 _ _ hpart] at h
  obtain ⟨value, hvalue, h⟩ := bind_eq_ok_iff.mp h
  obtain ⟨⟨rest, others⟩, hrest, h⟩ := bind_eq_ok_iff.mp h
  obtain ⟨rfl, rfl⟩ := Prod.mk.inj (Except.ok.inj h)
  exact ⟨value, rest, others, hvalue, hrest, rfl, rfl⟩

/-- The pieces that a sum asks for: its text as it is, and an empty placeholder for every other
part. -/
def sumPieces : List Lowered → List Piece
  | [] => []
  | ⟨.text s, _⟩ :: parts => Template.consText s.toList (sumPieces parts)
  | _ :: parts => .hole .next :: sumPieces parts

/-- The template of a sum is read back as the parts of the sum, whatever braces its text holds. -/
theorem pieces_lowerParts (h : lowerParts parts = .ok (template, arguments)) :
    Template.pieces none template = .ok (sumPieces parts) := by
  induction parts using sumPieces.induct generalizing template arguments with
  | case1 => cases h; rfl
  | case2 s _ parts ih =>
    obtain ⟨rest, hrest, htemplate⟩ := lowerParts_text_inv h
    -- Escaped text is read back as the text, whatever template follows it.
    rw [htemplate, Template.escape, String.toList_ofList, Template.pieces_append_escape, ih hrest,
      sumPieces]
    rfl
  | case3 part parts hpart ih =>
    obtain ⟨value, rest, others, -, hrest, rfl, rfl⟩ := lowerParts_argument_inv hpart h
    rw [Template.pieces_append_hole, ih hrest, sumPieces.eq_3 _ _ hpart]
    rfl

/-- The placeholders of a sum take its arguments one after the other. -/
theorem filled_sumPieces {labels : List (Option String)} {next : Nat}
    (h : lowerParts parts = .ok (template, arguments))
    (hnext : next + arguments.length ≤ labels.count none) :
    Template.Filled labels next (sumPieces parts) := by
  -- Each part that is no text takes one positional argument, so `next` grows along the parts.
  induction parts using sumPieces.induct generalizing template arguments next with
  | case1 => exact Template.filled_nil_iff.mpr (Nat.le_trans (Nat.le_add_right _ _) hnext)
  | case2 s _ parts ih =>
    obtain ⟨rest, hrest, -⟩ := lowerParts_text_inv h
    rw [sumPieces, Template.filled_consText_iff]
    exact ih hrest hnext
  | case3 part parts hpart ih =>
    obtain ⟨value, rest, others, -, hrest, -, rfl⟩ := lowerParts_argument_inv hpart h
    rw [sumPieces.eq_3 _ _ hpart, Template.filled_next_iff]
    apply ih hrest
    rw [List.length_cons] at hnext
    omega

/-- Every argument of a sum is the value of one of its parts, and is positional. -/
theorem lowerParts_arguments (h : lowerParts parts = .ok (template, arguments)) :
    ∀ a ∈ arguments, a.label = none ∧ ∃ part ∈ parts, part.expression = .ok a.value := by
  induction parts using sumPieces.induct generalizing template arguments with
  | case1 => cases h; exact fun _ ha => nomatch ha
  | case2 s _ parts ih =>
    obtain ⟨rest, hrest, -⟩ := lowerParts_text_inv h
    intro a ha
    obtain ⟨hlabel, part, hmem, hvalue⟩ := ih hrest a ha
    exact ⟨hlabel, part, List.mem_cons_of_mem _ hmem, hvalue⟩
  | case3 part parts hpart ih =>
    obtain ⟨value, rest, others, hvalue, hrest, -, rfl⟩ := lowerParts_argument_inv hpart h
    refine List.forall_mem_cons.mpr ⟨⟨rfl, part, List.mem_cons_self, hvalue⟩, ?_⟩
    intro a ha
    obtain ⟨hlabel, part', hmem, hvalue'⟩ := ih hrest a ha
    exact ⟨hlabel, part', List.mem_cons_of_mem _ hmem, hvalue'⟩

end LowerParts

theorem lowerSum_inv {parts : List Lowered} (h : lowerSum parts = .ok expression) :
    ∃ template arguments, lowerParts parts = .ok (template, arguments) ∧
      expression = .format (String.ofList template) arguments := by
  unfold lowerSum at h
  split at h
  · obtain ⟨⟨template, arguments⟩, hparts, h⟩ := bind_eq_ok_iff.mp h
    cases h
    exact ⟨template, arguments, hparts, rfl⟩
  · cases h

/-! ## Accesses to the context -/

theorem lowerAccess_inv {primitive : Primitive} {arguments : List (Argument Lowered)}
    {key : String} {explicit : Option TypeTag}
    (h : lowerAccess primitive arguments key explicit = .ok expression) :
    (∃ implied, primitive = .get implied ∧
      expression = .get key ((implied.or explicit).getD .string)) ∨
    ∃ implied value lowered, primitive = .capture implied ∧
      Argument.slot? 1 "value" arguments = some value ∧ value.expression = .ok lowered ∧
      expression = .capture key lowered ((implied.or explicit).getD (inferredType value.term)) := by
  unfold lowerAccess at h
  split at h
  · next implied =>
    cases h
    exact .inl ⟨implied, rfl, rfl⟩
  · next implied =>
    split at h
    · cases h
    · next value hvalue =>
      obtain ⟨lowered, hlowered, h⟩ := bind_eq_ok_iff.mp h
      cases h
      exact .inr ⟨implied, value, lowered, rfl, hvalue, hlowered, rfl⟩

/-- An access that has an expression stands under the context as a formal, and its key is a text. It
has no more positional arguments than places, and a type that it names is the one that its name
implies. -/
theorem lowerPrimitive_inv {primitive : Primitive} {arguments : List (Argument Lowered)}
    (h : lowerPrimitive formals primitive arguments = .ok expression) :
    contextName ∈ formals ∧ (Argument.positionals arguments).length ≤ primitive.arity ∧
    ∃ key written explicit,
      Argument.slot? 0 "key" arguments = some ⟨.text key, written⟩ ∧
      typeArgument primitive (Argument.slot? (primitive.arity - 1) "type" arguments) =
        .ok explicit ∧
      (∀ implied named, primitive.implied? = some implied → explicit = some named →
        implied = named) ∧
      lowerAccess primitive arguments key explicit = .ok expression := by
  unfold lowerPrimitive at h
  simp only at h
  split at h
  · cases h
  · next hcontext =>
    split at h
    · cases h
    · next harity =>
      refine ⟨Decidable.not_not.mp hcontext, Nat.not_lt.mp harity, ?_⟩
      split at h
      · next key written hkey =>
        obtain ⟨explicit, hexplicit, h⟩ := bind_eq_ok_iff.mp h
        refine ⟨key, written, explicit, hkey, hexplicit, ?_⟩
        -- A type that contradicts the name of the primitive is an error; otherwise nothing changes.
        split at h
        · next implied named himplied =>
          split at h
          · next heq =>
            refine ⟨fun _ _ himplied' hnamed' => ?_, h⟩
            cases himplied.symm.trans himplied'
            cases hnamed'
            exact heq
          · cases h
        · next hneither =>
          exact ⟨fun implied named himplied hnamed => absurd hnamed (hneither implied named himplied), h⟩
      · cases h

/-! ## Calls, macros and tuples -/

theorem lowerFunction_inv {id : String} {arguments : List (Argument Lowered)}
    (h : lowerFunction formals id arguments = .ok expression) :
    (id = "str" ∧ ∃ value lowered, arguments = [⟨none, value⟩] ∧ value.expression = .ok lowered ∧
      expression = .format "\x7b\x7d" [⟨none, lowered⟩]) ∨
    (id ≠ "str" ∧ ∃ primitive, Primitive.ofName? id = some primitive ∧
      lowerPrimitive formals primitive arguments = .ok expression) := by
  unfold lowerFunction at h
  split at h
  · next hid =>
    split at h
    · next value =>
      obtain ⟨lowered, hlowered, h⟩ := bind_eq_ok_iff.mp h
      cases h
      exact .inl ⟨hid, value, lowered, rfl, hlowered, rfl⟩
    · cases h
  · next hid =>
    split at h
    · next primitive hprimitive => exact .inr ⟨hid, primitive, hprimitive, h⟩
    · cases h

/-- What can be called: a function, a method of the context, or `format` on a template. -/
theorem lowerCall_inv {function : Term} {arguments : List (Argument Lowered)}
    (h : lowerCall formals function arguments = .ok expression) :
    (∃ id, function = .name id ∧ lowerFunction formals id arguments = .ok expression) ∨
    (∃ method primitive, function = .attribute (.name contextName) method ∧
      Primitive.ofName? method = some primitive ∧
      lowerPrimitive formals primitive arguments = .ok expression) ∨
    ∃ template, function = .attribute (.text template) "format" ∧
      lowerFormat template arguments = .ok expression := by
  unfold lowerCall at h
  split at h
  · next id => exact .inl ⟨id, rfl, h⟩
  · next base method =>
    split at h
    · next primitive hprimitive =>
      split at h
      · next hbase => exact .inr (.inl ⟨method, primitive, by rw [hbase], hprimitive, h⟩)
      · cases h
    · cases h
  · next template method =>
    split at h
    · next hmethod => exact .inr (.inr ⟨template, by rw [hmethod], h⟩)
    · cases h
  · cases h
  · cases h

theorem lowerMacro_inv {id : String} {arguments : List (Argument Lowered)}
    (h : lowerMacro id arguments = .ok expression) :
    id = "format" ∧ ∃ template written rest,
      arguments = ⟨none, ⟨.text template, written⟩⟩ :: rest ∧
      lowerFormat template rest = .ok expression := by
  unfold lowerMacro at h
  split at h
  · next hid =>
    split at h
    · next template written rest => exact ⟨hid, template, written, rest, rfl, h⟩
    · cases h
  · cases h

theorem lowerTuple_inv {items : List Lowered} (h : lowerTuple formals items = .ok expression) :
    contextName ∈ formals ∧ ∃ value written, items = [value, ⟨.name contextName, written⟩] ∧
      value.expression = .ok expression := by
  unfold lowerTuple at h
  split at h
  · next value id written =>
    split at h
    · next hid => exact ⟨hid.2, value, written, by rw [hid.1], h⟩
    · cases h
  · cases h

end Cookbook.Rule
