/-!
# Arguments

An argument of a call or of a template is positional or stands under a label.
-/

namespace Cookbook

/-- A value with its label; a positional argument has none. -/
structure Argument (α : Type) where
  label : Option String
  value : α
  deriving DecidableEq, Repr

namespace Argument

variable {α : Type}

/-- Whether the argument is positional. -/
def isPositional (a : Argument α) : Bool := a.label.isNone

/-- The positional values, in order. -/
def positionals (arguments : List (Argument α)) : List α :=
  arguments.filterMap fun a => if a.isPositional then some a.value else none

/-- The first value under a label. -/
def labelled? (label : String) (arguments : List (Argument α)) : Option α :=
  arguments.findSome? fun a => if a.label = some label then some a.value else none

/-- The last value under a label. -/
def lastLabelled? (label : String) (arguments : List (Argument α)) : Option α :=
  labelled? label arguments.reverse

/-- The argument in a place: the positional one at that index, or else the first one under a
label. -/
def slot? (position : Nat) (label : String) (arguments : List (Argument α)) : Option α :=
  (positionals arguments)[position]?.or (labelled? label arguments)

/-! ## Laws -/

/-- What stands in a place is one of the values. -/
theorem mem_of_slot? {position : Nat} {label : String} {arguments : List (Argument α)} {value : α}
    (h : slot? position label arguments = some value) : ∃ a ∈ arguments, a.value = value := by
  rcases Option.or_eq_some_iff.mp h with h | ⟨-, h⟩
  · obtain ⟨a, ha, hvalue⟩ := List.mem_filterMap.mp (List.mem_of_getElem? h)
    split at hvalue
    · exact ⟨a, ha, Option.some.inj hvalue⟩
    · cases hvalue
  · obtain ⟨a, ha, hvalue⟩ := List.exists_of_findSome?_eq_some h
    split at hvalue
    · exact ⟨a, ha, Option.some.inj hvalue⟩
    · cases hvalue

/-- Under distinct labels, every labelled value is found. -/
theorem labelled?_of_mem {arguments : List (Argument α)} {label : String} {value : α}
    (hnodup : (arguments.filterMap (·.label)).Nodup) (h : ⟨some label, value⟩ ∈ arguments) :
    labelled? label arguments = some value := by
  induction arguments with
  | nil => cases h
  | cons a arguments ih =>
    obtain ⟨own, first⟩ := a
    rcases List.mem_cons.mp h with heq | hmem
    · cases heq
      simp [labelled?]
    · cases own with
      | none => simpa [labelled?] using ih hnodup hmem
      | some own =>
        have hnodup : own ∉ arguments.filterMap (·.label) ∧ (arguments.filterMap (·.label)).Nodup :=
          List.nodup_cons.mp hnodup
        have hne : own ≠ label := by
          rintro rfl
          exact hnodup.1 (List.mem_filterMap.mpr ⟨⟨some own, value⟩, hmem, rfl⟩)
        simpa [labelled?, hne] using ih hnodup.2 hmem

section Map

variable {β : Type} (f : α → β)

/-- Changes a value and keeps its label. -/
def map (a : Argument α) : Argument β := ⟨a.label, f a.value⟩

theorem positionals_map (arguments : List (Argument α)) :
    positionals (arguments.map (map f)) = (positionals arguments).map f := by
  induction arguments with
  | nil => rfl
  | cons a arguments ih =>
    obtain ⟨label, value⟩ := a
    cases label with
    | none => exact congrArg (f value :: ·) ih
    | some _ => exact ih

theorem labelled?_map (label : String) (arguments : List (Argument α)) :
    labelled? label (arguments.map (map f)) = (labelled? label arguments).map f := by
  induction arguments with
  | nil => rfl
  | cons a arguments ih =>
    by_cases h : a.label = some label
    · simp [labelled?, map, h]
    · simpa [labelled?, map, h] using ih

/-- A change of all values keeps the places. -/
theorem slot?_map (position : Nat) (label : String) (arguments : List (Argument α)) :
    slot? position label (arguments.map (map f)) = (slot? position label arguments).map f := by
  rw [slot?, slot?, positionals_map, labelled?_map, List.getElem?_map]
  cases (positionals arguments)[position]? <;> rfl

end Map

end Argument

end Cookbook
