import Cookbook.Proofs.Binding.Accesses
import Cookbook.Proofs.Binding.Places
import Cookbook.Proofs.Binding.Reordering

/-!
# Walk order and evaluation order

What is said about the order of captures and reads is read off a walk, which knows neither values
nor failures. The evaluation completes captures and reads in the same order, but it leaves out those
behind a failure and those in the branch of a conditional that is not taken.

## Main definitions

* `Binding.completed`, `Recipe.completed`: the places of the captures and reads that are completed.

## Main results

* `Binding.tells_completed`: these are the places of the accesses on record.
* `Binding.completed_sublist`: they are visited by a walk in this order.
* `Binding.completed_eq`: without failures and conditionals they are all accesses of a walk.
* `Recipe.walks_as_evaluated`: the same for a pass over the rules of a recipe.
-/

namespace Cookbook

open scoped List

/-- Whether an expression is itself a conditional. -/
def Expression.isConditional : Expression → Bool
  | .conditional .. => true
  | _ => false

namespace Binding

open Recorded

/-- The expression that made an access. -/
def Access.expression : Access → Expression
  | .write key source tag _ => .capture key source tag
  | .read key tag _ => .get key tag

/-- The place of an access itself, if its evaluation ends well. -/
def endsAt {α : Type} : Except Error α → List Place
  | .ok _ => [[]]
  | .error _ => []

mutual

/-- The places of the captures and reads that an evaluation completes, one after the other. -/
def completed (ancestry : Ancestry) (parameter : String) : Expression → Context → List Place
  | .field _ _, _ | .literal _, _ => []
  | .format _ arguments, context => completedArguments ancestry parameter 0 arguments context
  | .capture key source tag, context =>
    (completed ancestry parameter source context).map (0 :: ·) ++
      endsAt (eval ancestry parameter (.capture key source tag) context)
  | .get key tag, context => endsAt (eval ancestry parameter (.get key tag) context)
  | .conditional condition thenBranch otherwise, context =>
    (completed ancestry parameter condition context).map (0 :: ·) ++
      match eval ancestry parameter condition context with
      | .error _ => []
      | .ok (test, context) =>
        if test.truthy then (completed ancestry parameter thenBranch context).map (1 :: ·)
        else (completed ancestry parameter otherwise context).map (2 :: ·)

/-- The places in arguments, the first of which has the number `n`. -/
def completedArguments (ancestry : Ancestry) (parameter : String) (n : Nat) :
    List (Argument Expression) → Context → List Place
  | [], _ => []
  | ⟨_, value⟩ :: arguments, context =>
    (completed ancestry parameter value context).map (n :: ·) ++
      match eval ancestry parameter value context with
      | .error _ => []
      | .ok (_, context) => completedArguments ancestry parameter (n + 1) arguments context

end

/-- The places in the expression of a rule, which is evaluated if all declared ancestors are there. -/
def completedRule (ancestry : Ancestry) (rule : Rule) (context : Context) : List Place :=
  match missing? ancestry rule with
  | some _ => []
  | none => completed ancestry rule.parameter rule.expression context

/-- The places in rules, the first of which has the number `n`. -/
def completedRules (ancestry : Ancestry) (n : Nat) : List Rule → Context → List Place
  | [], _ => []
  | rule :: rules, context =>
    (completedRule ancestry rule context).map (n :: ·) ++
      match evalRule ancestry rule context with
      | .error _ => []
      | .ok (_, context) => completedRules ancestry (n + 1) rules context

variable {ancestry : Ancestry} {parameter : String} {n : Nat} {look : Place → Option Expression}

/-! ## The accesses on record -/

/-- What is looked up at the places is what made the accesses. -/
def Tells (look : Place → Option Expression) (places : List Place) (accesses : List Access) : Prop :=
  places.map look = accesses.map fun access => some access.expression

theorem Tells.append {before after : List Place} {first second : List Access}
    (hbefore : Tells look before first) (hafter : Tells look after second) :
    Tells look (before ++ after) (first ++ second) := by
  rw [Tells, List.map_append, List.map_append, hbefore, hafter]

/-- What is told inside a tree is told with its number in front. -/
theorem Tells.cons {e : Expression} {places : List Place} {accesses : List Access}
    (h : Tells e.at? places accesses) (hlook : ∀ place, look (n :: place) = e.at? place) :
    Tells look (places.map (n :: ·)) accesses := by
  rw [Tells, List.map_map, ← h]
  exact List.map_congr_left fun place _ => hlook place

theorem accesses_bind {α β : Type} (x : Recorded α) (f : α → Recorded β) :
    (x >>= f).accesses = x.accesses ++
      match x.outcome with
      | .ok a => (f a).accesses
      | .error _ => [] := by
  obtain ⟨accesses, outcome⟩ := x
  cases outcome with
  | ok a => rfl
  | error e => exact (List.append_nil _).symm

/-- A step that makes an access is completed, and put on record, if it ends well. -/
theorem tells_endsAt {σ : Type} (step : Except Error σ) (access : σ → Access)
    (result : σ → Json × Context) (h : ∀ s, look [] = some (access s).expression) :
    Tells look (endsAt (do let s ← step; return result s))
      (do let s ← step; made (access s); return result s : Recorded (Json × Context)).accesses := by
  cases step with
  | ok s => exact congrArg (· :: []) (h s)
  | error e => rfl

theorem tells_completedArguments {arguments : List (Argument Expression)}
    (ih : ∀ a ∈ arguments, ∀ context, Tells a.value.at? (completed ancestry parameter a.value context)
      (record ancestry parameter a.value context).accesses)
    (hlook : LooksInto look n (arguments.map (·.value))) (context : Context) :
    Tells look (completedArguments ancestry parameter n arguments context)
      (recordArguments ancestry parameter arguments context).accesses := by
  induction arguments generalizing n context with
  | nil => rfl
  | cons a arguments iha =>
    rw [List.forall_mem_cons] at ih
    rw [completedArguments, recordArguments, accesses_bind, outcome_record]
    refine ((ih.1 context).cons hlook.head).append ?_
    cases eval ancestry parameter a.value context with
    | error e => rfl
    | ok result =>
      dsimp only
      rw [accesses_bind]
      have hothers := iha ih.2 hlook.tail result.2
      -- Putting the values together accesses nothing.
      cases (recordArguments ancestry parameter arguments result.2).outcome <;>
        exact (List.append_nil _).symm ▸ hothers

/-- The completed captures and reads are those on record. -/
theorem tells_completed (e : Expression) (context : Context) :
    Tells e.at? (completed ancestry parameter e context)
      (record ancestry parameter e context).accesses := by
  -- The accesses of a part are those at its places, one level further down. An expression adds its
  -- own access behind them, at the empty place.
  induction e generalizing context with
  | field base path =>
    rw [record, accesses_bind]
    cases fieldOf ancestry parameter base path <;> rfl
  | literal value => rfl
  | format template arguments ih =>
    have harguments := tells_completedArguments ih
      (Expression.format template arguments).looksInto_at? context
    rw [completed, record, accesses_bind]
    cases (recordArguments ancestry parameter arguments context).outcome with
    -- A template makes no access of its own.
    | error e => exact (List.append_nil _).symm ▸ harguments
    | ok result =>
      dsimp only
      rw [accesses_bind]
      cases render template result.1 <;> exact (List.append_nil _).symm ▸ harguments
  | capture key source tag ih =>
    have hlook := (Expression.capture key source tag).looksInto_at?
    rw [completed, record, accesses_bind, outcome_record, eval]
    refine ((ih context).cons hlook.head).append ?_
    cases eval ancestry parameter source context with
    | error e => rfl
    | ok result =>
      exact tells_endsAt (captureSlot key tag result.1 result.2)
        (fun _ => .write key source tag result.1) (result.1, ·) fun _ => rfl
  | get key tag =>
    rw [completed, record, eval]
    exact tells_endsAt (readSlot key tag context) (fun slot => .read key tag slot.toJson)
      (fun slot => (slot.toJson, context)) fun _ => rfl
  | conditional condition thenBranch otherwise ihc iht iho =>
    have hlook := (Expression.conditional condition thenBranch otherwise).looksInto_at?
    rw [completed, record, accesses_bind, outcome_record]
    refine ((ihc context).cons hlook.head).append ?_
    cases eval ancestry parameter condition context with
    | error e => rfl
    | ok result =>
      dsimp only
      -- Only the branch that is taken is evaluated.
      split
      · exact (iht result.2).cons hlook.tail.head
      · exact (iho result.2).cons hlook.tail.tail.head

theorem tells_completedRule (rule : Rule) (context : Context) :
    Tells rule.expression.at? (completedRule ancestry rule context)
      (recordRule ancestry rule context).accesses := by
  unfold completedRule recordRule
  cases missing? ancestry rule with
  | some name => rfl
  | none => exact tells_completed rule.expression context

theorem tells_completedRules {rules : List Rule}
    (hlook : LooksInto look n (rules.map (·.expression))) (binding : Binding) :
    Tells look (completedRules ancestry n rules binding.context)
      (recordRules ancestry rules binding).accesses := by
  induction rules generalizing n binding with
  | nil => rfl
  | cons rule rules ih =>
    rw [completedRules, recordRules, accesses_bind, outcome_recordRule]
    refine ((tells_completedRule rule binding.context).cons hlook.head).append ?_
    cases evalRule ancestry rule binding.context with
    | error e => rfl
    | ok result => exact ih hlook.tail ⟨_, result.2⟩

/-! ## In the order of a walk -/

theorem endsAt_sublist {α : Type} (outcome : Except Error α) : endsAt outcome <+ [[]] := by
  cases outcome with
  | ok a => exact .refl _
  | error e => exact List.nil_sublist _

theorem completedArguments_sublist {arguments : List (Argument Expression)}
    (ih : ∀ a ∈ arguments, ∀ context,
      completed ancestry parameter a.value context <+ a.value.places) (n : Nat) (context : Context) :
    completedArguments ancestry parameter n arguments context <+
      Expression.argumentPlaces n arguments := by
  induction arguments generalizing n context with
  | nil => exact .refl _
  | cons a arguments iha =>
    rw [List.forall_mem_cons] at ih
    rw [completedArguments, Expression.argumentPlaces]
    refine ((ih.1 context).map _).append ?_
    cases eval ancestry parameter a.value context with
    | error e => exact List.nil_sublist _
    | ok result => exact iha ih.2 (n + 1) result.2

/-- What is completed is visited by a walk in the same order. -/
theorem completed_sublist (e : Expression) (context : Context) :
    completed ancestry parameter e context <+ e.places := by
  induction e generalizing context with
  | field base path => exact List.nil_sublist _
  | literal value => exact List.nil_sublist _
  | get key tag => exact endsAt_sublist _
  | format template arguments ih =>
    exact List.sublist_append_of_sublist_left (completedArguments_sublist ih 0 context)
  | capture key source tag ih => exact ((ih context).map _).append (endsAt_sublist _)
  | conditional condition thenBranch otherwise ihc iht iho =>
    rw [completed, Expression.places, List.append_assoc, List.append_assoc]
    -- The walk has both branches, in order; the evaluation enters one of them, or none if the
    -- condition fails.
    refine ((ihc context).map _).append ?_
    cases eval ancestry parameter condition context with
    | error e => exact List.nil_sublist _
    | ok result =>
      dsimp only
      split
      · exact List.sublist_append_of_sublist_left ((iht result.2).map _)
      · exact List.sublist_append_of_sublist_right
          (List.sublist_append_of_sublist_left ((iho result.2).map _))

theorem completedRule_sublist (rule : Rule) (context : Context) :
    completedRule ancestry rule context <+ rule.expression.places := by
  unfold completedRule
  cases missing? ancestry rule with
  | some name => exact List.nil_sublist _
  | none => exact completed_sublist rule.expression context

theorem completedRules_sublist (rules : List Rule) (n : Nat) (context : Context) :
    completedRules ancestry n rules context <+
      below n ((rules.map (·.expression)).map Expression.places) := by
  induction rules generalizing n context with
  | nil => exact .refl _
  | cons rule rules ih =>
    refine ((completedRule_sublist rule context).map _).append ?_
    cases evalRule ancestry rule context with
    | error e => exact List.nil_sublist _
    | ok result => exact ih (n + 1) result.2

/-! ## Without failures and conditionals -/

/-- Whether a capture or a read stands at a place. -/
def accessAt (look : Place → Option Expression) (place : Place) : Bool :=
  (look place).any Expression.isAccess

/-- The places where captures and reads stand. -/
def accessPlaces (look : Place → Option Expression) (places : List Place) : List Place :=
  places.filter (accessAt look)

theorem accessPlaces_append (before after : List Place) :
    accessPlaces look (before ++ after) = accessPlaces look before ++ accessPlaces look after :=
  List.filter_append ..

theorem accessPlaces_cons {e : Expression} (hlook : ∀ place, look (n :: place) = e.at? place)
    (places : List Place) :
    accessPlaces look (places.map (n :: ·)) = (accessPlaces e.at? places).map (n :: ·) := by
  rw [accessPlaces, accessPlaces, List.filter_map]
  refine congrArg _ (List.filter_congr fun place _ => ?_)
  rw [Function.comp_apply, accessAt, accessAt, hlook]

theorem completedArguments_eq {arguments : List (Argument Expression)} {context : Context}
    {result : List (Argument Json) × Context}
    (ih : ∀ a ∈ arguments, ∀ context result, eval ancestry parameter a.value context = .ok result →
      completed ancestry parameter a.value context = accessPlaces a.value.at? a.value.places)
    (hlook : LooksInto look n (arguments.map (·.value)))
    (h : evalArguments ancestry parameter arguments context = .ok result) :
    completedArguments ancestry parameter n arguments context =
      accessPlaces look (Expression.argumentPlaces n arguments) := by
  induction arguments generalizing n context result with
  | nil => rfl
  | cons a arguments iha =>
    rw [List.forall_mem_cons] at ih
    obtain ⟨first, hfirst, hrest⟩ := bind_eq_ok_iff.mp h
    obtain ⟨others, hothers, -⟩ := bind_eq_ok_iff.mp hrest
    rw [completedArguments, Expression.argumentPlaces, accessPlaces_append,
      accessPlaces_cons hlook.head, ← ih.1 context first hfirst, hfirst,
      ← iha ih.2 hlook.tail hothers]

/-- An evaluation that ends well completes all captures and reads of an expression without
conditionals. -/
theorem completed_eq {e : Expression} {context : Context} {result : Json × Context}
    (hplain : ∀ sub ∈ e.walk, sub.isConditional = false)
    (h : eval ancestry parameter e context = .ok result) :
    completed ancestry parameter e context = accessPlaces e.at? e.places := by
  -- An evaluation that ends well has gone through all parts, and without conditionals these are all
  -- that a walk visits.
  induction e generalizing context result with
  | field base path => rfl
  | literal value => rfl
  | get key tag =>
    rw [completed, h]
    rfl
  | format template arguments ih =>
    obtain ⟨values, hvalues, -⟩ := bind_eq_ok_iff.mp h
    rw [completed, Expression.places, accessPlaces_append]
    have harguments := completedArguments_eq
      (fun a ha _ _ => ih a ha fun sub hsub => hplain sub (mem_walk_format ha hsub))
      (Expression.format template arguments).looksInto_at? hvalues
    rw [harguments]
    exact (List.append_nil _).symm
  | capture key source tag ih =>
    have hlook := (Expression.capture key source tag).looksInto_at?
    obtain ⟨first, hfirst, -⟩ := bind_eq_ok_iff.mp h
    have hsource : ∀ sub ∈ source.walk, sub.isConditional = false := fun sub hsub =>
      hplain sub (List.mem_append_left _ hsub)
    rw [completed, Expression.places, accessPlaces_append, accessPlaces_cons hlook.head,
      ih hsource hfirst, h]
    rfl
  | conditional condition thenBranch otherwise =>
    cases hplain _ (mem_walk_self _)

theorem completedRules_eq {rules : List Rule} {start binding : Binding}
    (hplain : ∀ rule ∈ rules, ∀ sub ∈ rule.expression.walk, sub.isConditional = false)
    (hlook : LooksInto look n (rules.map (·.expression)))
    (h : evalRules ancestry rules start = .ok binding) :
    completedRules ancestry n rules start.context =
      accessPlaces look (below n ((rules.map (·.expression)).map Expression.places)) := by
  induction rules generalizing n start with
  | nil => rfl
  | cons rule rules ih =>
    rw [List.forall_mem_cons] at hplain
    obtain ⟨first, hfirst, hrest⟩ := bind_eq_ok_iff.mp h
    -- The rule was evaluated, so that none of its ancestors is missing.
    have hhere : completedRule ancestry rule start.context =
        accessPlaces rule.expression.at? rule.expression.places := by
      unfold evalRule at hfirst
      unfold completedRule
      cases hmissing : missing? ancestry rule with
      | some name => simp [hmissing] at hfirst
      | none =>
        rw [hmissing] at hfirst
        exact completed_eq hplain.1 hfirst
    rw [List.map_cons, List.map_cons, below, accessPlaces_append, accessPlaces_cons hlook.head,
      ← hhere, completedRules, hfirst, ← ih hplain.2 hlook.tail hrest]

end Binding

open Binding

/-- The places of the captures and reads that a pass over the rules completes, in the order in which
it does. -/
def Recipe.completed (recipe : Recipe) (ancestry : Ancestry) (seed : Context) : List Place :=
  completedRules ancestry 0 recipe.rules seed

namespace Recipe

theorem tells_completed (recipe : Recipe) (ancestry : Ancestry) (seed : Context) :
    Tells recipe.at? (recipe.completed ancestry seed) (recipe.record ancestry seed).accesses :=
  tells_completedRules (looksInto_forestAt? recipe.forest) ⟨.empty, seed⟩

theorem completed_sublist (recipe : Recipe) (ancestry : Ancestry) (seed : Context) :
    recipe.completed ancestry seed <+ recipe.places :=
  completedRules_sublist recipe.rules 0 seed

/-- A pass completes captures and reads in the order of a walk over the rules, which visits every
sub-expression once and children before their parents. If the pass ends well and nothing is
conditional, it completes all that the walk visits. -/
theorem walks_as_evaluated (recipe : Recipe) (ancestry : Ancestry) (seed : Context) :
    recipe.places.map recipe.at? = recipe.expressions.map some ∧
    VisitsOnce recipe.at? recipe.places ∧
    Tells recipe.at? (recipe.completed ancestry seed) (recipe.record ancestry seed).accesses ∧
    recipe.completed ancestry seed <+ recipe.places ∧
    (∀ binding, recipe.bind ancestry seed = .ok binding →
      (∀ e ∈ recipe.expressions, e.isConditional = false) →
        recipe.completed ancestry seed = accessPlaces recipe.at? recipe.places) := by
  refine ⟨recipe.map_at?_places, recipe.visitsOnce_places, recipe.tells_completed ancestry seed,
    recipe.completed_sublist ancestry seed, ?_⟩
  intro binding hbind hplain
  refine completedRules_eq (fun rule hrule sub hsub => hplain sub ?_)
    (looksInto_forestAt? recipe.forest) hbind
  exact List.mem_flatMap.mpr ⟨rule, hrule, hsub⟩

end Recipe

/-- A recipe that captures what it computes from another capture, and reads it back. -/
def ledger : Recipe where
  constraint := "Ledger"
  entrypoint := "main"
  dialect := .shell
  preamble := ""
  body := "cat"
  rules :=
    [⟨"line", ["account", "context"],
        .capture "line" (.format "\x7b\x7d, \x7b\x7d"
          [⟨none, .capture "sum" (.field "account" ["sum"]) .int⟩, ⟨none, .get "sum" .int⟩]) .string⟩,
      ⟨"again", ["context"], .get "line" .string⟩]
  requirements := []
  source := "ledger.sh"

/-- An account with something on it. -/
def account : Ancestry := .ofList [("account", .obj [("sum", .int 7)])]

theorem walks_as_evaluated_ledger :
    ledger.places = [[0, 0, 0, 0], [0, 0, 0], [0, 0, 1], [0, 0], [0], [1]] ∧
    (∀ e ∈ ledger.expressions, e.isConditional = false) ∧
    ledger.bind account .empty = .ok ⟨.ofList [("line", .str "7, 7"), ("again", .str "7, 7")],
      .ofList [("sum", .int 7), ("line", .string "7, 7")]⟩ ∧
    ledger.completed account .empty = [[0, 0, 0], [0, 0, 1], [0], [1]] := by
  have hplain : ∀ e ∈ ledger.expressions, e.isConditional = false := by
    simp [ledger, Recipe.expressions, Expression.walk, Expression.walkArguments,
      Expression.isConditional]
  have hbind : ledger.bind account .empty =
      .ok ⟨.ofList [("line", .str "7, 7"), ("again", .str "7, 7")],
        .ofList [("sum", .int 7), ("line", .string "7, 7")]⟩ := rfl
  obtain ⟨-, -, -, -, hcompleted⟩ := ledger.walks_as_evaluated account .empty
  exact ⟨rfl, hplain, hbind, (hcompleted _ hbind hplain).trans rfl⟩

end Cookbook
