import Cookbook.Context.Slot

/-!
# The context of a pass

The context is a set of named slots that the rules of one recipe share while its arguments are
bound. A rule writes a slot by capturing a value and reads it back at the type that it names.

## Main definitions

* `Context.capture`: writes a slot; the last write counts.
* `Context.get?`: reads a slot at a type, or says why not.
* `Context.merge`: takes over the slots that another pass left.
-/

namespace Cookbook

/-- Named slots. -/
abbrev Context := OrderedMap Slot

namespace Context

/-- Writes a slot. -/
def capture (context : Context) (key : String) (slot : Slot) : Context :=
  context.insert key slot

/-- Why a slot cannot be read. -/
inductive ReadFailure where
  /-- There is no slot under the key. -/
  | unbound
  /-- The slot holds a value of another type. -/
  | mismatch (found : TypeTag)
  deriving DecidableEq, Repr

/-- Reads a slot that may be missing. A slot that is there must have the type asked for. -/
def getOptional (context : Context) (key : String) (tag : TypeTag) :
    Except ReadFailure (Option Slot) :=
  match context.get? key with
  | none => .ok none
  | some slot => if slot.tag = tag then .ok (some slot) else .error (.mismatch slot.tag)

/-- Reads a slot of the given type. -/
def get (context : Context) (key : String) (tag : TypeTag) : Except ReadFailure Slot :=
  match context.getOptional key tag with
  | .ok (some slot) => .ok slot
  | .ok none => .error .unbound
  | .error failure => .error failure

/-- Takes over every slot that an earlier pass left. -/
def merge (context left : Context) : Context :=
  left.entries.foldl (fun context entry => context.insert entry.1 entry.2) context

/-- The slots that a list of earlier passes left together; of two passes with one key the later
one counts. -/
def mergeAll (left : List Context) : Context :=
  left.foldl merge .empty

end Context

end Cookbook
