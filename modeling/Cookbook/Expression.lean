import Cookbook.Argument
import Cookbook.Context.Slot

/-!
# Expressions and rules

A rule tells how one argument of a recipe is computed from ancestor data and the context. Its
expression is a small tree without functions: binding it needs no code to be run.

## Main definitions

* `Expression`: the trees, and `Expression.children`: what stands directly inside one.
* `Expression.same`: whether two trees are the same, which decides their equality.
* `Expression.walk`: all sub-expressions, in the order in which binding meets them.
* `Rule`: an expression with the argument that it computes and the names that it may read.
-/

namespace Cookbook

/-- The formal that gives a rule access to the context. -/
def contextName : String := "context"

/-- A constant of a rule. -/
inductive Literal where
  | none
  | bool (value : Bool)
  | int (value : Int64)
  | text (value : String)
  deriving DecidableEq, Repr, Inhabited

/-- A constant as data. -/
def Literal.toJson : Literal → Json
  | .none => .null
  | .bool b => .bool b
  | .int n => .int n.toInt
  | .text s => .str s

/-- How an argument is computed. -/
inductive Expression where
  /-- A field of an ancestor, reached along a path. -/
  | field (base : String) (path : List String)
  /-- A template filled from arguments. -/
  | format (template : String) (arguments : List (Argument Expression))
  | literal (value : Literal)
  /-- A value that is also written to the context. -/
  | capture (key : String) (value : Expression) (tag : TypeTag)
  /-- A value read from the context. -/
  | get (key : String) (tag : TypeTag)
  | conditional (condition thenBranch otherwise : Expression)
  deriving Inhabited

namespace Expression

/-- Induction over expressions, with a hypothesis for the value of each argument of a template. -/
@[elab_as_elim, induction_eliminator]
theorem inductionOn {motive : Expression → Prop}
    (field : ∀ base path, motive (.field base path))
    (format : ∀ template arguments, (∀ a ∈ arguments, motive a.value) →
      motive (.format template arguments))
    (literal : ∀ value, motive (.literal value))
    (capture : ∀ key value tag, motive value → motive (.capture key value tag))
    (get : ∀ key tag, motive (.get key tag))
    (conditional : ∀ condition thenBranch otherwise, motive condition → motive thenBranch →
      motive otherwise → motive (.conditional condition thenBranch otherwise))
    (expression : Expression) : motive expression :=
  @Expression.rec motive (fun arguments => ∀ a ∈ arguments, motive a.value)
    (fun argument => motive argument.value) field format literal capture get conditional
    (fun _ h => nomatch h) (fun _ _ head tail => List.forall_mem_cons.mpr ⟨head, tail⟩)
    (fun _ _ value => value) expression

mutual

/-- Whether two expressions are the same tree. No such test is derived for a type that is nested in
the type of lists. -/
def same : Expression → Expression → Bool
  | field base path, field base' path' => base == base' && path == path'
  | format template arguments, format template' arguments' =>
    template == template' && sameArguments arguments arguments'
  | literal value, literal value' => value == value'
  | capture key value tag, capture key' value' tag' =>
    key == key' && same value value' && tag == tag'
  | get key tag, get key' tag' => key == key' && tag == tag'
  | conditional condition thenBranch otherwise, conditional condition' thenBranch' otherwise' =>
    same condition condition' && same thenBranch thenBranch' && same otherwise otherwise'
  | _, _ => false

/-- Whether two lists of arguments have the same labels and the same values. -/
def sameArguments : List (Argument Expression) → List (Argument Expression) → Bool
  | [], [] => true
  | ⟨label, value⟩ :: arguments, ⟨label', value'⟩ :: arguments' =>
    label == label' && same value value' && sameArguments arguments arguments'
  | _, _ => false

end

theorem sameArguments_iff {arguments others : List (Argument Expression)}
    (h : ∀ a ∈ arguments, ∀ other, a.value.same other = true ↔ a.value = other) :
    sameArguments arguments others = true ↔ arguments = others := by
  induction arguments generalizing others with
  | nil => cases others <;> simp [sameArguments]
  | cons argument arguments ih =>
    rw [List.forall_mem_cons] at h
    obtain ⟨label, value⟩ := argument
    rcases others with _ | ⟨⟨label', value'⟩, others⟩
    · simp [sameArguments]
    · simp [sameArguments, h.1, ih h.2]

theorem same_iff (expression other : Expression) :
    expression.same other = true ↔ expression = other := by
  induction expression generalizing other with
  | format template arguments ih => cases other <;> simp [same, sameArguments_iff ih]
  | capture key value tag ih => cases other <;> simp [same, ih, and_assoc]
  | conditional condition thenBranch otherwise ihc iht iho =>
    cases other <;> simp [same, ihc, iht, iho, and_assoc]
  | _ => cases other <;> simp [same]

instance : DecidableEq Expression := fun expression other =>
  decidable_of_iff _ (same_iff expression other)

/-- The expressions that stand directly inside another. -/
def children : Expression → List Expression
  | format _ arguments => arguments.map (·.value)
  | capture _ value _ => [value]
  | conditional condition thenBranch otherwise => [condition, thenBranch, otherwise]
  | field .. | literal _ | get .. => []

mutual

/-- Every sub-expression, children before parents, in the order in which binding meets them. Both
branches of a conditional are included. -/
def walk : Expression → List Expression
  | field base path => [field base path]
  | literal value => [literal value]
  | get key tag => [get key tag]
  | format template arguments => walkArguments arguments ++ [format template arguments]
  | capture key value tag => walk value ++ [capture key value tag]
  | conditional condition thenBranch otherwise =>
    walk condition ++ walk thenBranch ++ walk otherwise ++
      [conditional condition thenBranch otherwise]

/-- The sub-expressions of arguments, one argument after the other. -/
def walkArguments : List (Argument Expression) → List Expression
  | [] => []
  | ⟨_, value⟩ :: arguments => walk value ++ walkArguments arguments

end

end Expression

/-- How one argument is computed. -/
structure Rule where
  /-- The argument. -/
  parameter : String
  /-- The ancestors that the rule reads, and `context` if it uses the context. -/
  dependencies : List String
  expression : Expression
  deriving DecidableEq, Inhabited

/-- Whether a rule has access to the context. -/
def Rule.usesContext (rule : Rule) : Bool :=
  rule.dependencies.contains contextName

end Cookbook
