import Cookbook.Json.Number

/-!
# Structured data

The values that ancestors provide, that rules compute and that descriptors are written as.

## Main definitions

* `Json`: null, truth values, numbers, text, lists and objects. An object lists its fields in the
  order in which they were written, repetitions included.
* `Json.normalize`: fields sorted by name, the last of several with one name kept.
* `Json.truthy`: which values count as true in a condition.
-/

namespace Cookbook

/-- A value of the data format. -/
inductive Json where
  | null
  | bool (value : Bool)
  | number (value : Number)
  | str (value : String)
  | arr (items : List Json)
  | obj (fields : List (String × Json))
  deriving Inhabited

namespace Json

/-- An integer. -/
abbrev int (n : Int) : Json := .number (.int n)

/-- The name of a value's type, as messages give it. -/
def typeName : Json → String
  | null => "null"
  | bool _ => "bool"
  | number (.int _) => "int"
  | number (.float _) => "float"
  | str _ => "string"
  | arr _ => "array"
  | obj _ => "object"

/-- Null, false, zero, empty text and empty containers count as false. -/
def truthy : Json → Bool
  | null => false
  | bool b => b
  | number n => n.isNonzero
  | str s => !s.isEmpty
  | arr items => !items.isEmpty
  | obj fields => !fields.isEmpty

/-- The first field of an object with the given name. -/
def field? (name : String) : Json → Option Json
  | obj fields => fields.lookup name
  | _ => none

/-! ## Normal form -/

/-- Puts a field into a list sorted by name, in place of one with the same name. -/
def insertField (name : String) (value : Json) : List (String × Json) → List (String × Json)
  | [] => [(name, value)]
  | (other, old) :: rest =>
    if name < other then (name, value) :: (other, old) :: rest
    else if name = other then (name, value) :: rest
    else (other, old) :: insertField name value rest

mutual

/-- Every object's fields sorted by name, the last of several with one name kept. -/
def normalize : Json → Json
  | arr items => arr (normalizeItems items)
  | obj fields => obj (normalizeFields [] fields)
  | value => value

/-- `normalize` on each item. -/
def normalizeItems : List Json → List Json
  | [] => []
  | item :: items => normalize item :: normalizeItems items

/-- `normalize` on each field, put among the fields sorted so far. -/
def normalizeFields (sorted : List (String × Json)) : List (String × Json) → List (String × Json)
  | [] => sorted
  | (name, value) :: fields => normalizeFields (insertField name (normalize value) sorted) fields

end

end Json

end Cookbook
