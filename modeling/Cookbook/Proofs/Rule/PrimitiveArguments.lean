import Cookbook.Proofs.Rule.Preservation
import Mathlib.Data.List.Nodup

/-!
# The arguments of a context primitive

A primitive has places for a key, for a value if it captures, and for a type. Positional arguments
take the places in order, labelled ones the place of their label. Of the arguments of a call only
some are heard: all positional ones, and a labelled one if its label is that of a place which no
argument has yet taken. The others are passed over without an error, so that a call has the meaning
of the call without them; what is heard fits the places, and all of it counts.

## Main definitions

* `Primitive.supply`: the values of arguments and the places that they are for.
* `Primitive.Fits`: each argument fills one place, and no place is filled twice.
* `Primitive.heard`: the arguments that are not passed over.
* `Counts`: a value in a place shows in an expression.

## Main results

* `fits_iff`: arguments fit exactly if they are not too many and all of them are heard.
* `lowerPrimitive_heard`: only what is heard matters.
* `lower_primitive_call`: what a call of a primitive that is accepted has of its arguments.
-/

namespace Cookbook

namespace Rule

/-- A place for an argument of a primitive. -/
inductive Place where
  | key
  | value
  | type
  deriving DecidableEq, Repr

/-- The label of a place. -/
def Place.label : Place → String
  | key => "key"
  | value => "value"
  | type => "type"

namespace Primitive

variable {α β : Type} {primitive : Primitive} {arguments : List (Argument α)} {free used : List Place}
  {place : Place} {label : String}

/-! ## Places -/

/-- The places of a primitive, in the order in which positional arguments take them. -/
def places : Primitive → List Place
  | capture _ => [.key, .value, .type]
  | get _ => [.key, .type]

/-- The place of a label. -/
def place? (primitive : Primitive) (label : String) : Option Place :=
  primitive.places.find? (·.label = label)

theorem length_places (primitive : Primitive) : primitive.places.length = primitive.arity := by
  cases primitive <;> rfl

theorem nodup_places (primitive : Primitive) : primitive.places.Nodup := by
  cases primitive <;> simp [places]

theorem position_unique {position index : Nat} (h : primitive.places[position]? = some place)
    (hindex : primitive.places[index]? = some place) : position = index :=
  (List.getElem?_inj (List.getElem?_eq_some_iff.mp h).1 primitive.nodup_places).mp
    (h.trans hindex.symm)

theorem place?_eq_some_iff :
    primitive.place? label = some place ↔ place ∈ primitive.places ∧ place.label = label := by
  constructor
  · intro h
    exact ⟨List.mem_of_find?_eq_some h, by simpa using List.find?_some h⟩
  · rintro ⟨hmem, rfl⟩
    cases primitive <;> cases place <;> first | rfl | simp [places] at hmem

/-! ## What fits -/

/-- The values of arguments, each with the place that it is for: the positional ones are for the
`free` places in order, the others for the place of their label. -/
def supply (primitive : Primitive) : List Place → List (Argument α) → List (Option Place × α)
  | _, [] => []
  | free, ⟨none, value⟩ :: arguments => (free.head?, value) :: primitive.supply free.tail arguments
  | free, ⟨some label, value⟩ :: arguments =>
    (primitive.place? label, value) :: primitive.supply free arguments

/-- The places that arguments are for. -/
def targets (primitive : Primitive) (arguments : List (Argument α)) : List (Option Place) :=
  (primitive.supply primitive.places arguments).map Prod.fst

/-- Each argument is for one place, and no place is supplied with two of them. -/
def Fits (primitive : Primitive) (arguments : List (Argument α)) : Prop :=
  none ∉ primitive.targets arguments ∧ (primitive.targets arguments).Nodup

instance : Decidable (primitive.Fits arguments) :=
  inferInstanceAs (Decidable (_ ∧ _))

/-! ## What is heard -/

/-- Arguments but for the labelled ones for no place and for a place that is used already. -/
def heardFrom (primitive : Primitive) (used : List Place) : List (Argument α) → List (Argument α)
  | [] => []
  | ⟨none, value⟩ :: arguments => ⟨none, value⟩ :: primitive.heardFrom used arguments
  | ⟨some label, value⟩ :: arguments =>
    match primitive.place? label with
    | none => primitive.heardFrom used arguments
    | some place =>
      if place ∈ used then primitive.heardFrom used arguments
      else ⟨some label, value⟩ :: primitive.heardFrom (place :: used) arguments

/-- The places that the positional arguments take, whatever stands between them. -/
def taken (primitive : Primitive) (arguments : List (Argument α)) : List Place :=
  primitive.places.take (Argument.positionals arguments).length

/-- The arguments that a primitive does not pass over. -/
def heard (primitive : Primitive) (arguments : List (Argument α)) : List (Argument α) :=
  primitive.heardFrom (primitive.taken arguments) arguments

/-! ## Fitting arguments -/

/-- The places of positional arguments come first, then those of the labels. -/
theorem targets_perm (free : List Place) (arguments : List (Argument α)) :
    ((primitive.supply free arguments).map Prod.fst).Perm
      ((free.take (Argument.positionals arguments).length).map some ++
        List.replicate ((Argument.positionals arguments).length - free.length) none ++
        (arguments.filterMap (·.label)).map primitive.place?) := by
  induction arguments generalizing free with
  | nil => simp [supply, Argument.positionals]
  | cons a arguments ih =>
    obtain ⟨label, value⟩ := a
    cases label with
    | none =>
      have hlength : (Argument.positionals (⟨none, value⟩ :: arguments)).length =
          (Argument.positionals arguments).length + 1 := rfl
      cases free with
      | nil => simpa [supply, hlength, List.replicate_succ] using ih []
      | cons place free => simpa [supply, hlength] using ih free
    | some label => exact ((ih free).cons _).trans List.perm_middle.symm

/-- Arguments fit if the positional ones are not too many, and the labels are those of distinct
places that these do not take. -/
theorem fits_iff_labels :
    primitive.Fits arguments ↔
      (Argument.positionals arguments).length ≤ primitive.arity ∧
      none ∉ (arguments.filterMap (·.label)).map primitive.place? ∧
      ((primitive.taken arguments).map some ++
        (arguments.filterMap (·.label)).map primitive.place?).Nodup := by
  have hperm := primitive.targets_perm primitive.places arguments
  rw [Fits, targets, hperm.mem_iff, hperm.nodup_iff, length_places, taken]
  by_cases harity : (Argument.positionals arguments).length ≤ primitive.arity
  · have hsome : none ∉ (primitive.places.take (Argument.positionals arguments).length).map some := by
      simp only [List.mem_map, reduceCtorEq, and_false, exists_false, not_false_eq_true]
    rw [Nat.sub_eq_zero_of_le harity, List.replicate_zero, List.append_nil, List.mem_append, not_or]
    simp only [hsome, harity, not_false_eq_true, true_and]
  · have hmore : (Argument.positionals arguments).length - primitive.arity ≠ 0 := by omega
    simp [hmore, harity]

theorem length_heardFrom_le (primitive : Primitive) (used : List Place)
    (arguments : List (Argument α)) :
    (primitive.heardFrom used arguments).length ≤ arguments.length := by
  fun_induction heardFrom primitive used arguments with
  | case1 => exact Nat.le_refl 0
  | case2 _ _ _ ih | case5 _ _ _ _ _ _ _ ih => exact Nat.succ_le_succ ih
  | case3 _ _ _ _ _ ih | case4 _ _ _ _ _ _ _ ih => exact Nat.le_succ_of_le ih

/-- All arguments are heard if the labels are those of distinct places that are not used. -/
theorem heardFrom_eq_self_iff (hused : used.Nodup) :
    primitive.heardFrom used arguments = arguments ↔
      none ∉ (arguments.filterMap (·.label)).map primitive.place? ∧
      (used.map some ++ (arguments.filterMap (·.label)).map primitive.place?).Nodup := by
  -- If an argument is passed over, what is heard is too short to be the whole list.
  have hshort (used : List Place) (a : Argument α) (arguments : List (Argument α)) :
      primitive.heardFrom used arguments ≠ a :: arguments := by
    intro heq
    have hle := primitive.length_heardFrom_le used arguments
    rw [heq, List.length_cons] at hle
    omega
  fun_induction heardFrom primitive used arguments with
  | case1 used => simpa using List.Nodup.map (fun _ _ h => Option.some.inj h) hused
  | case2 used value arguments ih => simpa using ih hused
  | case3 used label value arguments hplace => simp [hshort, hplace]
  | case4 used label value arguments place hplace hmem =>
    refine iff_of_false (hshort used _ arguments) fun h => ?_
    have hnodup := h.2
    simp only [List.filterMap_cons, List.map_cons, hplace] at hnodup
    rw [List.perm_middle.nodup_iff, List.nodup_cons] at hnodup
    exact hnodup.1 (List.mem_append_left _ (List.mem_map.mpr ⟨place, hmem, rfl⟩))
  | case5 used label value arguments place hplace hmem ih =>
    have hrest := ih (List.nodup_cons.mpr ⟨hmem, hused⟩)
    simp only [List.cons.injEq, true_and, hrest, List.filterMap_cons, List.map_cons, hplace,
      List.mem_cons, reduceCtorEq, false_or, List.cons_append]
    rw [List.perm_middle.nodup_iff]

/-- What is heard is heard when it stands alone. -/
theorem heardFrom_heardFrom (primitive : Primitive) (used : List Place)
    (arguments : List (Argument α)) :
    primitive.heardFrom used (primitive.heardFrom used arguments) =
      primitive.heardFrom used arguments := by
  fun_induction heardFrom primitive used arguments with
  | case1 => rfl
  | case2 _ value _ ih => exact congrArg (⟨none, value⟩ :: ·) ih
  | case3 _ _ _ _ _ ih | case4 _ _ _ _ _ _ _ ih => exact ih
  | case5 used label value arguments place hplace hmem ih =>
    simpa only [heardFrom, hplace, hmem, if_false] using congrArg (⟨some label, value⟩ :: ·) ih

theorem positionals_heardFrom (primitive : Primitive) (used : List Place)
    (arguments : List (Argument α)) :
    Argument.positionals (primitive.heardFrom used arguments) = Argument.positionals arguments := by
  fun_induction heardFrom primitive used arguments with
  | case1 => rfl
  | case2 _ value _ ih => exact congrArg (value :: ·) ih
  | case3 _ _ _ _ _ ih | case4 _ _ _ _ _ _ _ ih | case5 _ _ _ _ _ _ _ ih => exact ih

@[simp]
theorem taken_heard (primitive : Primitive) (arguments : List (Argument α)) :
    primitive.taken (primitive.heard arguments) = primitive.taken arguments := by
  rw [taken, heard, positionals_heardFrom, taken]

theorem heard_heard (primitive : Primitive) (arguments : List (Argument α)) :
    primitive.heard (primitive.heard arguments) = primitive.heard arguments := by
  rw [heard, taken_heard, heard, heardFrom_heardFrom]

/-- Arguments fit exactly if the positional ones are not too many and none is passed over. -/
theorem fits_iff :
    primitive.Fits arguments ↔
      (Argument.positionals arguments).length ≤ primitive.arity ∧
      primitive.heard arguments = arguments := by
  have htaken : (primitive.taken arguments).Nodup :=
    (nodup_places primitive).sublist (List.take_sublist _ _)
  rw [fits_iff_labels, heard, heardFrom_eq_self_iff htaken]

/-- What is heard fits, unless there are too many positional arguments. -/
theorem fits_heard (h : (Argument.positionals arguments).length ≤ primitive.arity) :
    primitive.Fits (primitive.heard arguments) := by
  rw [fits_iff, heard, positionals_heardFrom]
  exact ⟨h, primitive.heard_heard arguments⟩

/-! ## What is in the places -/

/-- A place that is not used has the same first argument under its label after some are passed
over. -/
theorem labelled?_heardFrom (hplace : primitive.place? label = some place) (hused : place ∉ used)
    (arguments : List (Argument α)) :
    Argument.labelled? label (primitive.heardFrom used arguments) =
      Argument.labelled? label arguments := by
  have hskip {own : String} (hne : own ≠ label) (value : α) (arguments : List (Argument α)) :
      Argument.labelled? label (⟨some own, value⟩ :: arguments) =
        Argument.labelled? label arguments := by
    simp [Argument.labelled?, hne]
  -- What is passed over has no place or one that is used, and the label has another. The first
  -- argument under the label is the first in its place, since no other label leads there.
  fun_induction heardFrom primitive used arguments with
  | case1 => rfl
  | case2 used value arguments ih => simpa [Argument.labelled?] using ih hused
  | case3 used own value arguments hnone ih =>
    have hne : own ≠ label := by
      rintro rfl
      cases hplace.symm.trans hnone
    rw [hskip hne, ih hused]
  | case4 used own value arguments other hother hmem ih =>
    have hne : own ≠ label := by
      rintro rfl
      cases hplace.symm.trans hother
      exact hused hmem
    rw [hskip hne, ih hused]
  | case5 used own value arguments other hother hmem ih =>
    by_cases hown : own = label
    · simp [Argument.labelled?, hown]
    · have hne : place ≠ other := by
        rintro rfl
        exact hown ((place?_eq_some_iff.mp hother).2.symm.trans (place?_eq_some_iff.mp hplace).2)
      rw [hskip hown, hskip hown, ih (List.not_mem_cons_of_ne_of_not_mem hne hused)]

/-- The place behind the positional arguments is not taken. -/
theorem not_mem_taken {position : Nat} (h : primitive.places[position]? = some place)
    (hbehind : (Argument.positionals arguments)[position]? = none) :
    place ∉ primitive.taken arguments := by
  intro hmem
  obtain ⟨index, hindex⟩ := List.mem_iff_getElem?.mp hmem
  rw [taken, List.getElem?_take] at hindex
  split at hindex
  · next hlt =>
    have heq : position = index := position_unique h hindex
    rw [List.getElem?_eq_none_iff] at hbehind
    omega
  · cases hindex

/-- What is heard has the same argument in each place. -/
theorem slot?_heard (place : Place) {position : Nat} (h : primitive.places[position]? = some place)
    (arguments : List (Argument α)) :
    Argument.slot? position place.label (primitive.heard arguments) =
      Argument.slot? position place.label arguments := by
  have hplace : primitive.place? place.label = some place :=
    place?_eq_some_iff.mpr ⟨List.mem_of_getElem? h, rfl⟩
  rw [Argument.slot?, Argument.slot?, heard, positionals_heardFrom]
  cases hpositional : (Argument.positionals arguments)[position]? with
  | some value => rfl
  | none => rw [labelled?_heardFrom hplace (not_mem_taken h hpositional)]

/-- What is for a place is a positional argument or stands under a label. -/
theorem mem_supply {value : α} (h : (some place, value) ∈ primitive.supply free arguments) :
    (∃ position : Nat, free[position]? = some place ∧
      (Argument.positionals arguments)[position]? = some value) ∨
    ∃ label, ⟨some label, value⟩ ∈ arguments ∧ primitive.place? label = some place := by
  -- A positional argument takes the first free place, so the places of those behind it are one
  -- further on.
  induction arguments generalizing free with
  | nil => cases h
  | cons a arguments ih =>
    obtain ⟨label, first⟩ := a
    cases label with
    | none =>
      rcases List.mem_cons.mp h with heq | h
      · obtain ⟨hplace, rfl⟩ := Prod.mk.inj heq
        exact .inl ⟨0, List.head?_eq_getElem? ▸ hplace.symm, rfl⟩
      · rcases ih h with ⟨position, hplace, hvalue⟩ | ⟨label, hmem, hplace⟩
        · exact .inl ⟨position + 1, List.getElem?_tail ▸ hplace, hvalue⟩
        · exact .inr ⟨label, List.mem_cons_of_mem _ hmem, hplace⟩
    | some label =>
      rcases List.mem_cons.mp h with heq | h
      · obtain ⟨hplace, rfl⟩ := Prod.mk.inj heq
        exact .inr ⟨label, List.mem_cons_self, hplace.symm⟩
      · rcases ih h with hpositional | ⟨label, hmem, hplace⟩
        · exact .inl hpositional
        · exact .inr ⟨label, List.mem_cons_of_mem _ hmem, hplace⟩

theorem mem_places_of_mem_supply {value : α}
    (h : (some place, value) ∈ primitive.supply primitive.places arguments) :
    place ∈ primitive.places := by
  rcases mem_supply h with ⟨position, hplace, -⟩ | ⟨label, -, hplace⟩
  · exact List.mem_of_getElem? hplace
  · exact (place?_eq_some_iff.mp hplace).1

/-- In each place of arguments that fit stands the value that is for it. -/
theorem slot?_of_mem_supply {position : Nat} {value : α} (hfits : primitive.Fits arguments)
    (h : primitive.places[position]? = some place)
    (hmem : (some place, value) ∈ primitive.supply primitive.places arguments) :
    Argument.slot? position place.label arguments = some value := by
  obtain ⟨-, -, hnodup⟩ := fits_iff_labels.mp hfits
  rw [Argument.slot?]
  rcases mem_supply hmem with ⟨index, hindex, hvalue⟩ | ⟨label, hlabel, hplace⟩
  · rw [position_unique h hindex, hvalue, Option.some_or]
  · have htarget : some place ∈ (arguments.filterMap (·.label)).map primitive.place? :=
      List.mem_map.mpr ⟨label, List.mem_filterMap.mpr ⟨_, hlabel, rfl⟩, hplace⟩
    -- The place is not one of those that the positional arguments take.
    have hbehind : (Argument.positionals arguments)[position]? = none := by
      rw [List.getElem?_eq_none_iff]
      by_contra hlt
      have htaken : (primitive.taken arguments)[position]? = some place := by
        rw [taken, List.getElem?_take, if_pos (Nat.not_le.mp hlt), h]
      exact (List.nodup_append.mp hnodup).2.2 _
        (List.mem_map.mpr ⟨place, List.mem_of_getElem? htaken, rfl⟩) _ htarget rfl
    rw [hbehind, Option.none_or, (place?_eq_some_iff.mp hplace).2]
    exact Argument.labelled?_of_mem (List.Nodup.of_map _ (List.nodup_append.mp hnodup).2.1) hlabel

theorem heardFrom_map (f : α → β) (primitive : Primitive) (used : List Place)
    (arguments : List (Argument α)) :
    primitive.heardFrom used (arguments.map (Argument.map f)) =
      (primitive.heardFrom used arguments).map (Argument.map f) := by
  fun_induction heardFrom primitive used arguments with
  | case1 => rfl
  | case2 _ value _ ih => exact congrArg (⟨none, f value⟩ :: ·) ih
  | case3 used label value arguments hplace ih =>
    simpa only [List.map_cons, Argument.map, heardFrom, hplace] using ih
  | case4 used label value arguments place hplace hmem ih =>
    simpa only [List.map_cons, Argument.map, heardFrom, hplace, hmem, if_true] using ih
  | case5 used label value arguments place hplace hmem ih =>
    simpa only [List.map_cons, Argument.map, heardFrom, hplace, hmem, if_false] using
      congrArg (⟨some label, f value⟩ :: ·) ih

/-- A change of all values keeps what is heard. -/
theorem heard_map (f : α → β) (primitive : Primitive) (arguments : List (Argument α)) :
    primitive.heard (arguments.map (Argument.map f)) =
      (primitive.heard arguments).map (Argument.map f) := by
  rw [heard, taken, Argument.positionals_map, List.length_map, heardFrom_map, heard, taken]

/-! ## Calls -/

/-- What can be called for a primitive: its name, and the method of the context of that name. -/
def callees (primitive : Primitive) : List Term :=
  [.name primitive.name, .attribute (.name contextName) primitive.name]

end Primitive

open Primitive Meaning

variable {formals : List String} {expression : Expression} {primitive : Primitive}

/-- How the value in a place shows in the expression of a call: as the key, as the expression whose
value is captured, or as the type. -/
inductive Counts (formals : List String) : Place → Term → Expression → Prop where
  | keyOfCapture (key : String) (value : Expression) (tag : TypeTag) :
    Counts formals .key (.text key) (.capture key value tag)
  | keyOfGet (key : String) (tag : TypeTag) : Counts formals .key (.text key) (.get key tag)
  | value {term : Term} {value : Expression} (h : lower formals term = .ok value) (key : String)
      (tag : TypeTag) :
    Counts formals .value term (.capture key value tag)
  | typeOfCapture {term : Term} {tag : TypeTag} (h : type? term = some tag) (key : String)
      (value : Expression) :
    Counts formals .type term (.capture key value tag)
  | typeOfGet {term : Term} {tag : TypeTag} (h : type? term = some tag) (key : String) :
    Counts formals .type term (.get key tag)

/-- The expression of an access depends on what is heard only. -/
theorem lowerPrimitive_heard (formals : List String) (primitive : Primitive)
    (arguments : List (Argument Lowered)) :
    lowerPrimitive formals primitive (primitive.heard arguments) =
      lowerPrimitive formals primitive arguments := by
  -- Everything that the lowering asks of the arguments is what is heard: the positional ones and
  -- those in a place.
  have hpositionals : Argument.positionals (primitive.heard arguments) =
      Argument.positionals arguments := positionals_heardFrom _ _ _
  have hkey : Argument.slot? 0 "key" (primitive.heard arguments) =
      Argument.slot? 0 "key" arguments :=
    slot?_heard .key (by cases primitive <;> rfl) arguments
  have htype : Argument.slot? (primitive.arity - 1) "type" (primitive.heard arguments) =
      Argument.slot? (primitive.arity - 1) "type" arguments :=
    slot?_heard .type (by cases primitive <;> rfl) arguments
  have haccess (key : String) (explicit : Option TypeTag) :
      lowerAccess primitive (primitive.heard arguments) key explicit =
        lowerAccess primitive arguments key explicit := by
    cases primitive with
    | get implied => rfl
    | capture implied =>
      have hvalue : Argument.slot? 1 "value" ((capture implied).heard arguments) =
          Argument.slot? 1 "value" arguments := slot?_heard .value rfl arguments
      rw [lowerAccess, lowerAccess, hvalue]
  unfold lowerPrimitive
  simp only [hpositionals, hkey, htype, haccess]

theorem lower_call {function : Term} (h : function ∈ primitive.callees)
    (arguments : List (Argument Term)) :
    lower formals (.call function arguments) =
      lowerPrimitive formals primitive (lowerArguments formals arguments) := by
  have hname : ofName? primitive.name = some primitive := by
    rcases primitive with (_ | _ | _ | _) | (_ | _ | _ | _) <;> rfl
  have hstr : primitive.name ≠ "str" := by
    rcases primitive with (_ | _ | _ | _) | (_ | _ | _ | _) <;> decide
  rw [lower]
  rcases List.mem_pair.mp h with rfl | rfl
  · rw [lowerCall]
    unfold lowerFunction
    rw [if_neg hstr, hname]
  · simp only [lowerCall, hname, if_true]

theorem typeArgument_some_inv {written : Lowered} {named : Option TypeTag}
    (h : typeArgument primitive (some written) = .ok named) :
    ∃ tag, named = some tag ∧ type? written.term = some tag := by
  have htype : type? written.term = named := type?_of_typeArgument h
  cases named with
  | some tag => exact ⟨tag, rfl, htype⟩
  | none =>
    unfold typeArgument at h
    split at h
    · cases ‹some written = none›
    all_goals
      first
      | cases h
      | split at h <;> cases h

/-- Every value that is for a place of an access counts, if the arguments fit. -/
theorem counts_of_fits {arguments : List (Argument Term)} (hfits : primitive.Fits arguments)
    (h : lowerPrimitive formals primitive (lowerArguments formals arguments) = .ok expression)
    {place : Place} {term : Term}
    (hmem : (some place, term) ∈ primitive.supply primitive.places arguments) :
    Counts formals place term expression := by
  obtain ⟨-, -, key, written, explicit, hkey, hexplicit, himplied, haccess⟩ := lowerPrimitive_inv h
  have hslot {position : Nat} (hplace : primitive.places[position]? = some place) :
      Argument.slot? position place.label (lowerArguments formals arguments) =
        some ⟨term, lower formals term⟩ := by
    rw [slot?_lowerArguments, slot?_of_mem_supply hfits hplace hmem, Option.map_some]
  -- A type that is named is the type of the access, as it does not contradict the name.
  have htag {tag : TypeTag} (hnamed : explicit = some tag) :
      primitive.implied?.or explicit = some tag := by
    cases hname : primitive.implied? with
    | none => exact hnamed
    | some implied => exact congrArg some (himplied implied tag hname hnamed)
  cases place with
  | key =>
    have hfirst : some (⟨term, lower formals term⟩ : Lowered) = some ⟨.text key, written⟩ :=
      (hslot (by cases primitive <;> rfl)).symm.trans hkey
    cases hfirst
    rcases lowerAccess_inv haccess with ⟨_, _, rfl⟩ | ⟨_, _, _, _, _, _, rfl⟩
    · exact .keyOfGet key _
    · exact .keyOfCapture key _ _
  | value =>
    rcases lowerAccess_inv haccess with ⟨implied, rfl, rfl⟩ |
      ⟨implied, value, lowered, rfl, hvalue, hlowered, rfl⟩
    · exact absurd (mem_places_of_mem_supply hmem) (by simp [places])
    · cases (hslot rfl).symm.trans hvalue
      exact .value hlowered key _
  | type =>
    have hlast : Argument.slot? (primitive.arity - 1) "type" (lowerArguments formals arguments) =
        some ⟨term, lower formals term⟩ := hslot (by cases primitive <;> rfl)
    rw [hlast] at hexplicit
    obtain ⟨tag, hnamed, htype⟩ := typeArgument_some_inv hexplicit
    rcases lowerAccess_inv haccess with ⟨implied, rfl, rfl⟩ | ⟨implied, _, _, rfl, _, _, rfl⟩
    · have himplied' : implied.or explicit = some tag := htag hnamed
      rw [himplied']
      exact .typeOfGet htype key
    · have himplied' : implied.or explicit = some tag := htag hnamed
      rw [himplied']
      exact .typeOfCapture htype key _

/-! ## The main theorem -/

/-- A call of a primitive has the outcome of the call without the arguments that are passed over:
labelled ones for no place, and for a place that is filled already. If it is accepted, what is left
fits the places, each of the values left counts, and the arguments fit as they were written exactly
if none of them was passed over. -/
theorem lower_primitive_call (formals : List String) (primitive : Primitive) (function : Term)
    (arguments : List (Argument Term)) (hfunction : function ∈ primitive.callees) :
    lower formals (.call function arguments) =
      lower formals (.call function (primitive.heard arguments)) ∧
    ∀ expression, lower formals (.call function arguments) = .ok expression →
      primitive.Fits (primitive.heard arguments) ∧
      (∀ place term,
        (some place, term) ∈ primitive.supply primitive.places (primitive.heard arguments) →
          Counts formals place term expression) ∧
      (primitive.Fits arguments ↔ primitive.heard arguments = arguments) := by
  -- Passing over arguments and lowering them may change places, because only labels are looked at.
  have hheard : lowerPrimitive formals primitive (lowerArguments formals arguments) =
      lowerPrimitive formals primitive
        (lowerArguments formals (primitive.heard arguments)) := by
    rw [lowerArguments_eq_map, lowerArguments_eq_map, ← heard_map, lowerPrimitive_heard]
  rw [lower_call hfunction, lower_call hfunction]
  refine ⟨hheard, fun expression h => ?_⟩
  -- An accepted call has no more positional arguments than there are places.
  have harity : (Argument.positionals arguments).length ≤ primitive.arity := by
    have hlength := (lowerPrimitive_inv h).2.1
    rwa [lowerArguments_eq_map, Argument.positionals_map, List.length_map] at hlength
  have hfits : primitive.Fits (primitive.heard arguments) := fits_heard harity
  refine ⟨hfits, fun place term hmem => counts_of_fits hfits (hheard ▸ h) hmem, ?_⟩
  rw [fits_iff, and_iff_right harity]

/-- A capture of three rows, with a second type and a label that is no place. -/
def rowsArguments : List (Argument Term) :=
  [⟨none, .text "rows"⟩, ⟨some "type", .name "int"⟩, ⟨some "value", .int 3⟩,
    ⟨some "type", .name "str"⟩, ⟨some "note", .text "three"⟩]

theorem lower_primitive_call_rows :
    .attribute (.name "context") "capture" ∈ (Primitive.capture none).callees ∧
    lower ["context"] (.call (.attribute (.name "context") "capture") rowsArguments) =
      lower ["context"] (.call (.attribute (.name "context") "capture") (rowsArguments.take 3)) ∧
    (Primitive.capture none).Fits (rowsArguments.take 3) ∧
    ¬ (Primitive.capture none).Fits rowsArguments ∧
    Counts ["context"] .type (.name "int") (.capture "rows" (.literal (.int 3)) .int) := by
  have hfunction : .attribute (.name "context") "capture" ∈ (Primitive.capture none).callees :=
    List.mem_pair.mpr (.inr rfl)
  have hheard : (Primitive.capture none).heard rowsArguments = rowsArguments.take 3 := rfl
  have hpassed : (Primitive.capture none).heard rowsArguments ≠ rowsArguments := by
    intro heq
    exact absurd (congrArg List.length heq) (by decide)
  obtain ⟨hsame, haccepted⟩ := lower_primitive_call ["context"] (.capture none) _ rowsArguments
    hfunction
  obtain ⟨hfits, hcounts, hwhole⟩ := haccepted (.capture "rows" (.literal (.int 3)) .int) rfl
  rw [hheard] at hsame hfits
  refine ⟨hfunction, hsame, hfits, fun h => hpassed (hwhole.mp h), ?_⟩
  exact hcounts .type (.name "int") (List.mem_cons_of_mem _ List.mem_cons_self)

/-- A read whose label for the type is misspelt is a read of a string. -/
theorem misspelt_label_accepted :
    lower ["context"]
        (.call (.name "get") [⟨none, .text "port"⟩, ⟨some "typ", .name "int"⟩]) =
      .ok (.get "port" .string) ∧
    ¬ (Primitive.get none).Fits [⟨none, Term.text "port"⟩, ⟨some "typ", .name "int"⟩] :=
  ⟨rfl, by decide⟩

end Rule

end Cookbook
