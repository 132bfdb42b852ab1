import Cookbook.Json.Basic
import Cookbook.OrderedMap

/-!
# Data of an expected shape

Readers from a value to the type that it should describe. All of them fail without a reason: a
value has the shape or it has not.

A record may be written as an object, in which other fields are ignored and no expected field may
stand twice, or as a list of its fields in order.
-/

namespace Cookbook.Json

variable {α : Type}

/-- A text. -/
def text? : Json → Option String
  | str s => some s
  | _ => none

/-- A truth value. -/
def bool? : Json → Option Bool
  | bool b => some b
  | _ => none

/-- An integer of 64 bits with sign. -/
def int64? : Json → Option Int64
  | number (.int n) =>
    if Int64.minValue.toInt ≤ n ∧ n ≤ Int64.maxValue.toInt then some (Int64.ofInt n) else none
  | _ => none

/-- A list whose items all have a shape. -/
def list? (item : Json → Option α) : Json → Option (List α)
  | arr items => items.mapM item
  | _ => none

/-- Null, or a value of a shape. -/
def optional? (value : Json → Option α) : Json → Option (Option α)
  | null => some none
  | other => (value other).map some

/-- An object whose values all have a shape; the last of several values with one name counts. -/
def map? (value : Json → Option α) : Json → Option (OrderedMap α)
  | obj fields => OrderedMap.ofList <$> fields.mapM fun (name, v) => (value v).map (name, ·)
  | _ => none

/-- The fields of an object under the given names, each at most once. -/
def fields? (names : List String) (fields : List (String × Json)) :
    Option (List (Option Json)) :=
  names.mapM fun name =>
    match fields.filter fun f => f.1 = name with
    | [] => some none
    | [(_, value)] => some (some value)
    | _ => none

/-- The fields of a record with the given names; one that is not written is `none`. -/
def record? (names : List String) : Json → Option (List (Option Json))
  | obj fields => fields? names fields
  | arr items =>
    if items.length ≤ names.length then
      some (items.map some ++ List.replicate (names.length - items.length) none)
    else none
  | _ => none

/-- The name of a case without data: a text, or an object whose only field has that name and a
value that counts as no data. -/
def caseName? (isNothing : Json → Bool) : Json → Option String
  | str s => some s
  | obj [(name, value)] => if isNothing value then some name else none
  | _ => none

end Cookbook.Json
