import Cookbook.Argument

/-!
# Terms

What the author of a rule wrote after the colon of the `lambda`, before it is given a meaning. The
grammar derives more terms than binding supports.
-/

namespace Cookbook

/-- A term of the rule grammar. -/
inductive Term where
  | text (value : String)
  | int (value : Int64)
  | bool (value : Bool)
  | none
  | name (id : String)
  | attribute (base : Term) (field : String)
  | call (function : Term) (arguments : List (Argument Term))
  | macroCall (id : String) (arguments : List (Argument Term))
  /-- Two or more terms with a plus sign between each two. -/
  | sum (parts : List Term)
  | conditional (thenBranch condition otherwise : Term)
  | tuple (items : List Term)
  deriving Inhabited

/-- Induction over terms, with a hypothesis for each argument, part and item. -/
@[elab_as_elim, induction_eliminator]
theorem Term.inductionOn {motive : Term → Prop}
    (text : ∀ value, motive (.text value))
    (int : ∀ value, motive (.int value))
    (bool : ∀ value, motive (.bool value))
    (none : motive .none)
    (name : ∀ id, motive (.name id))
    (field : ∀ base field, motive base → motive (.attribute base field))
    (call : ∀ function arguments, motive function → (∀ a ∈ arguments, motive a.value) →
      motive (.call function arguments))
    (macroCall : ∀ id arguments, (∀ a ∈ arguments, motive a.value) →
      motive (.macroCall id arguments))
    (sum : ∀ parts, (∀ part ∈ parts, motive part) → motive (.sum parts))
    (conditional : ∀ thenBranch condition otherwise, motive thenBranch → motive condition →
      motive otherwise → motive (.conditional thenBranch condition otherwise))
    (tuple : ∀ items, (∀ item ∈ items, motive item) → motive (.tuple items))
    (term : Term) : motive term :=
  @Term.rec motive (fun arguments => ∀ a ∈ arguments, motive a.value)
    (fun terms => ∀ term ∈ terms, motive term) (fun argument => motive argument.value)
    text int bool none name field call macroCall sum conditional tuple
    (fun _ h => nomatch h) (fun _ _ head tail => List.forall_mem_cons.mpr ⟨head, tail⟩)
    (fun _ h => nomatch h) (fun _ _ head tail => List.forall_mem_cons.mpr ⟨head, tail⟩)
    (fun _ _ value => value) term

end Cookbook
