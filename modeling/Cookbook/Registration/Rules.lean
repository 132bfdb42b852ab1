import Cookbook.Registration.Items
import Cookbook.Rule.Compile

/-!
# The rules of an argument map

Every entry `"parameter": lambda ...: expression` of an argument map gives one rule; no parameter
may occur twice.
-/

namespace Cookbook

open Cookbook.Text

/-- The rules of entries that stand in a map at byte offset `base`, in order; `earlier` lists the
parameters that have a rule already. -/
def rulesOfEntries (lineOf : Nat → Nat) (base : Nat) (earlier : List String) :
    List Entry → Except Error (List Rule)
  | [] => .ok []
  | entry :: entries =>
    if entry.key ∈ earlier then
      .error (.malformed (lineOf (base + entry.keyOffset)) (.duplicateArgument entry.key))
    else do
      -- Offsets into the text of the rule are counted from the header's start for `lineOf`.
      let start := base + entry.value.offset
      let rule ← Rule.compile entry.key entry.value.text fun offset => lineOf (start + offset)
      let rules ← rulesOfEntries lineOf base (entry.key :: earlier) entries
      return rule :: rules

/-- The rules of an argument map, in order of declaration. `lineOf` tells the line of a byte offset
into the header in which the map stands. -/
def compileRules (lineOf : Nat → Nat) (map : Segment) : Except Error (List Rule) :=
  match splitEntries map.text with
  | .error (offset, expected) =>
    .error (.malformed (lineOf (map.offset + offset))
      (.malformedMap expected (String.ofList map.text)))
  | .ok entries => rulesOfEntries lineOf map.offset [] entries

end Cookbook
