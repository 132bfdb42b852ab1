import Cookbook.Proofs.Rule.Inversion
import Cookbook.Proofs.Rule.WellFormed
import Cookbook.Registration.Rules

/-!
# Compiled rules are well formed

The compiler of rules and the check of a registry are separate. What the compiler makes of a term is
an expression in which the check finds nothing, by induction on the term.

## Main results

* `wellFormed_lower`: the expression of a term is well formed under the formals of its rule.
* `rulesOfEntries_sound`: so are the rules of an argument map, and no parameter occurs twice.
-/

namespace Cookbook

open Cookbook.Text

namespace Rule

variable {formals : List String} {expression : Expression}

/-- A term whose expression, if it has one, is well formed. -/
def Lowered.Sound (formals : List String) (lowered : Lowered) : Prop :=
  ∀ expression, lowered.expression = .ok expression → expression.WellFormed formals

/-! ## Constructs -/

theorem wellFormed_lowerDotted {term : Term} (h : lowerDotted formals term = .ok expression) :
    expression.WellFormed formals := by
  obtain ⟨base, path, -, hbase, hne, rfl⟩ := lowerDotted_inv h
  exact .field hbase hne

theorem wellFormed_lowerFormat {template : String} {arguments : List (Argument Lowered)}
    (harguments : ∀ a ∈ arguments, a.value.Sound formals)
    (h : lowerFormat template arguments = .ok expression) : expression.WellFormed formals := by
  obtain ⟨pieces, lowered, hparse, hlowered, hfilled, rfl⟩ := lowerFormat_inv h
  refine .format hparse hfilled ?_
  intro b hb
  obtain ⟨a, ha, -, hvalue⟩ := exists_mem_of_forall₂ hlowered b hb
  exact harguments a ha _ hvalue

theorem wellFormed_lowerSum {parts : List Lowered} (hparts : ∀ part ∈ parts, part.Sound formals)
    (h : lowerSum parts = .ok expression) : expression.WellFormed formals := by
  obtain ⟨template, arguments, hlower, rfl⟩ := lowerSum_inv h
  have hparse : Template.parse (String.ofList template) = .ok (sumPieces parts) := by
    rw [Template.parse, String.toList_ofList]
    exact pieces_lowerParts hlower
  -- All arguments of a sum are positional, one for each empty placeholder.
  have hpositional : (arguments.map (·.label)).count none = arguments.length := by
    rw [← Template.length_positionals, Argument.positionals, List.length_filterMap_eq_countP,
      List.countP_eq_length]
    intro a ha
    simp [Argument.isPositional, (lowerParts_arguments hlower a ha).1]
  have hfilled : Template.Filled (arguments.map (·.label)) 0 (sumPieces parts) :=
    filled_sumPieces hlower (by omega)
  refine .format hparse hfilled ?_
  intro a ha
  obtain ⟨-, part, hmem, hvalue⟩ := lowerParts_arguments hlower a ha
  exact hparts part hmem _ hvalue

theorem wellFormed_lowerPrimitive {primitive : Primitive} {arguments : List (Argument Lowered)}
    (harguments : ∀ a ∈ arguments, a.value.Sound formals)
    (h : lowerPrimitive formals primitive arguments = .ok expression) :
    expression.WellFormed formals := by
  obtain ⟨hcontext, -, key, written, explicit, -, -, -, h⟩ := lowerPrimitive_inv h
  rcases lowerAccess_inv h with ⟨implied, rfl, rfl⟩ |
    ⟨implied, value, lowered, rfl, hvalue, hlowered, rfl⟩
  · exact .get hcontext
  · obtain ⟨a, ha, rfl⟩ := Argument.mem_of_slot? hvalue
    exact .capture hcontext (harguments a ha _ hlowered)

theorem wellFormed_lowerFunction {id : String} {arguments : List (Argument Lowered)}
    (harguments : ∀ a ∈ arguments, a.value.Sound formals)
    (h : lowerFunction formals id arguments = .ok expression) : expression.WellFormed formals := by
  rcases lowerFunction_inv h with ⟨-, value, lowered, rfl, hlowered, rfl⟩ | ⟨-, primitive, -, h⟩
  · have hvalue : lowered.WellFormed formals :=
      harguments ⟨none, value⟩ List.mem_cons_self _ hlowered
    have hparse : Template.parse "\x7b\x7d" = .ok [.hole .next] := by decide
    have hfilled : Template.Filled [none] 0 [.hole .next] :=
      Template.filled_next_iff.mpr (Template.filled_nil_iff.mpr (Nat.le_refl _))
    exact .format hparse hfilled (List.forall_mem_singleton.mpr hvalue)
  · exact wellFormed_lowerPrimitive harguments h

theorem wellFormed_lowerCall {function : Term} {arguments : List (Argument Lowered)}
    (harguments : ∀ a ∈ arguments, a.value.Sound formals)
    (h : lowerCall formals function arguments = .ok expression) :
    expression.WellFormed formals := by
  rcases lowerCall_inv h with ⟨id, -, h⟩ | ⟨method, primitive, -, -, h⟩ | ⟨template, -, h⟩
  · exact wellFormed_lowerFunction harguments h
  · exact wellFormed_lowerPrimitive harguments h
  · exact wellFormed_lowerFormat harguments h

theorem wellFormed_lowerMacro {id : String} {arguments : List (Argument Lowered)}
    (harguments : ∀ a ∈ arguments, a.value.Sound formals)
    (h : lowerMacro id arguments = .ok expression) : expression.WellFormed formals := by
  obtain ⟨-, template, written, rest, rfl, hformat⟩ := lowerMacro_inv h
  exact wellFormed_lowerFormat (fun a ha => harguments a (List.mem_cons_of_mem _ ha)) hformat

/-! ## Terms -/

/-- The expression of a term is well formed under the formals of its rule. -/
theorem wellFormed_lower {term : Term} (h : lower formals term = .ok expression) :
    expression.WellFormed formals := by
  induction term generalizing expression with
  | text value => cases h; exact .literal
  | int value => cases h; exact .literal
  | bool value => cases h; exact .literal
  | none => cases h; exact .literal
  | name id => exact wellFormed_lowerDotted h
  | field base field _ => exact wellFormed_lowerDotted h
  | call function arguments _ ih =>
    rw [lower, lowerArguments_eq_map] at h
    apply wellFormed_lowerCall _ h
    exact List.forall_mem_map.mpr fun a ha _ hlower => ih a ha hlower
  | macroCall id arguments ih =>
    rw [lower, lowerArguments_eq_map] at h
    apply wellFormed_lowerMacro _ h
    exact List.forall_mem_map.mpr fun a ha _ hlower => ih a ha hlower
  | sum parts ih =>
    rw [lower, lowerTerms_eq_map] at h
    apply wellFormed_lowerSum _ h
    exact List.forall_mem_map.mpr fun part hpart _ hlower => ih part hpart hlower
  | conditional thenBranch condition otherwise iht ihc iho =>
    obtain ⟨c, hc, h⟩ := bind_eq_ok_iff.mp h
    obtain ⟨t, ht, h⟩ := bind_eq_ok_iff.mp h
    obtain ⟨o, ho, h⟩ := bind_eq_ok_iff.mp h
    cases h
    exact .conditional (ihc hc) (iht ht) (iho ho)
  | tuple items ih =>
    rw [lower, lowerTerms_eq_map] at h
    -- The expression of a pair is that of its first item, so that item is in the pair.
    obtain ⟨-, value, written, hitems, hvalue⟩ := lowerTuple_inv h
    have hmem : value ∈ items.map fun term => (⟨term, lower formals term⟩ : Lowered) := by
      rw [hitems]
      exact List.mem_cons_self
    obtain ⟨item, hitem, rfl⟩ := List.mem_map.mp hmem
    exact ih item hitem hvalue

/-! ## Rules -/

/-- A compiled rule is for the parameter it was written for, and is well formed. -/
theorem compile_sound {parameter : String} {text : List Char} {lineOf : Nat → Nat} {rule : Rule}
    (h : Rule.compile parameter text lineOf = .ok rule) :
    rule.parameter = parameter ∧ rule.WellFormed := by
  unfold Rule.compile at h
  simp only at h
  split at h
  · split at h
    · split at h
      · next hlower =>
        cases h
        exact ⟨rfl, wellFormed_lower hlower⟩
      · cases h
    · cases h
  · cases h

end Rule

/-- The rules of an argument map are well formed, and they compute the map's parameters, each of
which occurs once. -/
theorem rulesOfEntries_sound {lineOf : Nat → Nat} {base : Nat} {earlier : List String}
    {entries : List Entry} {rules : List Rule}
    (h : rulesOfEntries lineOf base earlier entries = .ok rules) :
    rules.map (·.parameter) = entries.map (·.key) ∧ (rules.map (·.parameter)).Nodup ∧
      (∀ rule ∈ rules, rule.parameter ∉ earlier) ∧ ∀ rule ∈ rules, rule.WellFormed := by
  -- A rule is refused if its parameter is among the `earlier` ones, which grow entry by entry.
  induction entries generalizing earlier rules with
  | nil => cases h; simp
  | cons entry entries ih =>
    rw [rulesOfEntries] at h
    split at h
    · cases h
    · next hearlier =>
      obtain ⟨rule, hrule, h⟩ := bind_eq_ok_iff.mp h
      obtain ⟨rules, hrules, h⟩ := bind_eq_ok_iff.mp h
      cases h
      obtain ⟨hparameter, hwell⟩ := Rule.compile_sound hrule
      obtain ⟨hkeys, hnodup, hfresh, hwells⟩ := ih hrules
      refine ⟨by rw [List.map_cons, List.map_cons, hparameter, hkeys], ?_, ?_, ?_⟩
      · rw [List.map_cons, List.nodup_cons]
        refine ⟨?_, hnodup⟩
        intro hmem
        obtain ⟨other, hother, heq⟩ := List.mem_map.mp hmem
        have hkey : other.parameter ∈ entry.key :: earlier := by
          rw [heq, hparameter]
          exact List.mem_cons_self
        exact hfresh other hother hkey
      · refine List.forall_mem_cons.mpr ⟨hparameter ▸ hearlier, ?_⟩
        intro other hother hmem
        exact hfresh other hother (List.mem_cons_of_mem _ hmem)
      · exact List.forall_mem_cons.mpr ⟨hwell, hwells⟩

/-- The same for the text of a map. -/
theorem compileRules_sound {lineOf : Nat → Nat} {map : Segment} {rules : List Rule}
    (h : compileRules lineOf map = .ok rules) :
    (rules.map (·.parameter)).Nodup ∧ ∀ rule ∈ rules, rule.WellFormed := by
  unfold compileRules at h
  split at h
  · cases h
  · obtain ⟨-, hnodup, -, hwell⟩ := rulesOfEntries_sound h
    exact ⟨hnodup, hwell⟩

end Cookbook
