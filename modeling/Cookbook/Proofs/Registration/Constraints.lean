import Cookbook.Proofs.Except
import Cookbook.Registration

/-!
# The constraints of a registration

The second positional argument of a registration call names the constraints. `ListsConstraints` says
which texts list which names, and every call that is read declares the names that its argument
lists, in that order.

## Main results

* `declares_of_find`: what a call declares.
* `Declares.forall_isIdentifier`, `Declares.ne_nil`: at least one name, and all of them identifiers.
-/

namespace Cookbook

open Cookbook.Text

/-- A text that names a constraint: an identifier, or a literal whose value is one. -/
inductive NamesConstraint (text : List Char) : String → Prop where
  | plain : isIdentifier (trim text) = true → NamesConstraint text (String.ofList (trim text))
  | quoted {value : List Char} : literalValue? (trim text) = some value →
      isIdentifier value = true → NamesConstraint text (String.ofList value)

/-- A text that lists constraints: one name, or at least one in square brackets. -/
inductive ListsConstraints (text : List Char) : List String → Prop where
  | one {name : String} : NamesConstraint text name → ListsConstraints text [name]
  | many {inner : List Char} {items : List (Argument Segment)} {names : List String} :
      text = '[' :: inner ++ [']'] → splitArguments inner = .ok items → names ≠ [] →
      List.Forall₂ (fun item name => item.label = none ∧ NamesConstraint item.value.text name)
        items names →
      ListsConstraints text names

/-- The registration call of a header declares these constraints, in order: its second positional
argument lists them. -/
def Declares (header : List Char) (names : List String) : Prop :=
  ∃ call arguments handle target others, Call.find header = .ok call ∧
    call.arguments header = .ok arguments ∧
    Argument.positionals arguments = handle :: target :: others ∧
    ListsConstraints target.text names

/-! ## Reading names -/

theorem namesConstraint_of_eq_some {text : List Char} {name : String}
    (h : constraintName? text = some name) : NamesConstraint text name := by
  unfold constraintName? at h
  simp only at h
  split at h
  · next hplain => cases h; exact .plain hplain
  · split at h
    · next value hvalue =>
      split at h
      · next hid => cases h; exact .quoted hvalue hid
      · cases h
    · cases h

theorem eq_of_bracketed? {text inner : List Char} (h : bracketed? text = some inner) :
    text = '[' :: inner ++ [']'] := by
  unfold bracketed? at h
  split at h
  · next rest =>
    split at h
    · next hlast =>
      cases h
      rw [List.cons_append, List.dropLast_append_getLast? _ hlast]
    · cases h
  · cases h

theorem listsConstraints_of_eq_some {text : List Char} {names : List String}
    (h : constraintNames? text = some names) : ListsConstraints text names := by
  unfold constraintNames? at h
  split at h
  · next inner hinner =>
    split at h
    · next name others hitems =>
      cases h
      unfold listItems? at hitems
      split at hitems
      · cases hitems
      · next items hsplit =>
        refine .many (eq_of_bracketed? hinner) hsplit (List.cons_ne_nil _ _) ?_
        -- Every item is read on its own, and none may have a label.
        apply (mapM_eq_some_iff.mp hitems).imp
        intro item name hitem
        split at hitem
        · next hpositional =>
          exact ⟨Option.isNone_iff_eq_none.mp hpositional, namesConstraint_of_eq_some hitem⟩
        · cases hitem
    · cases h
  · obtain ⟨name, hname, rfl⟩ := Option.map_eq_some_iff.mp h
    exact .one (namesConstraint_of_eq_some hname)

/-! ## What is declared -/

theorem declares_of_find {header : List Char} {registration : Registration}
    (h : Registration.find header = .ok registration) :
    Declares header registration.constraints := by
  obtain ⟨call, hcall, h⟩ := bind_eq_ok_iff.mp h
  obtain ⟨arguments, harguments, h⟩ := bind_eq_ok_iff.mp h
  obtain ⟨settings, -, h⟩ := bind_eq_ok_iff.mp h
  split at h
  · next handle target others hpositionals =>
    split at h
    · next constraints hconstraints =>
      cases h
      exact ⟨call, arguments, handle, target, others, hcall, harguments, hpositionals,
        listsConstraints_of_eq_some hconstraints⟩
    · cases h
  · cases h

variable {text header : List Char} {name : String} {names : List String}

theorem NamesConstraint.isIdentifier (h : NamesConstraint text name) :
    isIdentifier name.toList = true := by
  cases h with
  | plain hid => rwa [String.toList_ofList]
  | quoted _ hid => rwa [String.toList_ofList]

theorem ListsConstraints.forall_isIdentifier (h : ListsConstraints text names) :
    ∀ name ∈ names, isIdentifier name.toList = true := by
  cases h with
  | one hname => exact List.forall_mem_singleton.mpr hname.isIdentifier
  | many _ _ _ hitems =>
    intro name hname
    obtain ⟨item, -, -, hitem⟩ := exists_mem_of_forall₂ hitems name hname
    exact hitem.isIdentifier

theorem ListsConstraints.ne_nil (h : ListsConstraints text names) : names ≠ [] := by
  cases h with
  | one _ => exact List.cons_ne_nil _ _
  | many _ _ hne _ => exact hne

theorem Declares.forall_isIdentifier (h : Declares header names) :
    ∀ name ∈ names, isIdentifier name.toList = true := by
  obtain ⟨_, _, _, _, _, -, -, -, hlists⟩ := h
  exact hlists.forall_isIdentifier

theorem Declares.ne_nil (h : Declares header names) : names ≠ [] := by
  obtain ⟨_, _, _, _, _, -, -, -, hlists⟩ := h
  exact hlists.ne_nil

end Cookbook
