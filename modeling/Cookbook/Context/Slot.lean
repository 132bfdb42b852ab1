import Cookbook.Json.Decode

/-!
# Slots

The values that the context can hold: text, truth values and integers of 64 bits, each with a tag
that names its type.
-/

namespace Cookbook

/-- The type of a slot. -/
inductive TypeTag where
  | string
  | bool
  | int
  deriving DecidableEq, Repr, Inhabited

namespace TypeTag

/-- The name of a type. -/
def name : TypeTag → String
  | string => "string"
  | bool => "bool"
  | int => "int"

/-- The type with exactly this name. -/
def ofName? : String → Option TypeTag
  | "string" => some string
  | "bool" => some bool
  | "int" => some int
  | _ => none

@[simp] theorem ofName?_name (tag : TypeTag) : ofName? tag.name = some tag := by
  cases tag <;> rfl

end TypeTag

/-- A value of the context. -/
inductive Slot where
  | bool (value : Bool)
  | int (value : Int64)
  | string (value : String)
  deriving DecidableEq, Repr

namespace Slot

/-- The type of a slot's value. -/
def tag : Slot → TypeTag
  | bool _ => .bool
  | int _ => .int
  | string _ => .string

/-- The slot's value as data. -/
def toJson : Slot → Json
  | bool b => .bool b
  | int n => .int n.toInt
  | string s => .str s

/-- The slot of type `tag` that holds this value; none if the value has another type. -/
def ofJson? (tag : TypeTag) (value : Json) : Option Slot :=
  match tag with
  | .string => value.text?.map string
  | .bool => value.bool?.map bool
  | .int => value.int64?.map int

/-- The slot that holds this value, whatever its type. -/
def read? (value : Json) : Option Slot :=
  [TypeTag.bool, .int, .string].findSome? fun tag => ofJson? tag value

/-- The text of a slot's value. -/
def display : Slot → String
  | bool true => "true"
  | bool false => "false"
  | int n => Number.decimalInt n.toInt
  | string s => s

/-! ## Laws -/

/-- The slot that is made from a value has the type asked for. -/
theorem tag_of_ofJson? {tag : TypeTag} {value : Json} {slot : Slot}
    (h : ofJson? tag value = some slot) : slot.tag = tag := by
  cases tag with
  | string | bool | int =>
    obtain ⟨_, -, rfl⟩ := Option.map_eq_some_iff.mp h
    rfl

/-- The slot that is made from a value holds that value: nothing is lost on the way. -/
theorem toJson_of_ofJson? {tag : TypeTag} {value : Json} {slot : Slot}
    (h : ofJson? tag value = some slot) : slot.toJson = value := by
  cases tag with
  | string =>
    obtain ⟨s, hs, rfl⟩ := Option.map_eq_some_iff.mp h
    unfold Json.text? at hs
    split at hs
    · cases hs
      rfl
    · cases hs
  | bool =>
    obtain ⟨b, hb, rfl⟩ := Option.map_eq_some_iff.mp h
    unfold Json.bool? at hb
    split at hb
    · cases hb
      rfl
    · cases hb
  | int =>
    obtain ⟨n, hn, rfl⟩ := Option.map_eq_some_iff.mp h
    unfold Json.int64? at hn
    split at hn
    · split at hn
      · next m hrange =>
        cases hn
        -- Only integers in the range of the slot are taken, so none is cut.
        have hlt : m < 2 ^ 63 := Int.lt_of_le_of_lt hrange.2 (by decide)
        exact congrArg Json.int (Int64.toInt_ofInt_of_le hrange.1 hlt)
      · cases hn
    · cases hn

/-- A slot is made anew from its type and its data. -/
theorem ofJson?_toJson (slot : Slot) : ofJson? slot.tag slot.toJson = some slot := by
  cases slot with
  | bool b => rfl
  | string s => rfl
  | int n =>
    have hrange : Int64.minValue.toInt ≤ n.toInt ∧ n.toInt ≤ Int64.maxValue.toInt :=
      ⟨Int64.le_toInt n, Int64.toInt_le n⟩
    simp only [tag, toJson, ofJson?, Json.int64?, if_pos hrange, Int64.ofInt_toInt, Option.map_some]

end Slot

end Cookbook
