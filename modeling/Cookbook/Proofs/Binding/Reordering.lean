import Cookbook.Proofs.Binding.Reached
import Cookbook.Proofs.Except

/-!
# Rules in another order

A rule without captures and reads takes no part in the context: it neither sees nor changes it, and
whether it fails does not depend on where it stands. So such rules may change places with any others.
What the order of the rules decides is only the order in which the arguments are listed, as long as
the rules that take part in the context stay in order among themselves.

## Main definitions

* `Rule.touchesContext`: whether a rule captures or reads anything.
* `Interchangeable`: lists of rules that end alike from alike beginnings.

## Main results

* `exists_outcome`: what a rule that does not touch the context does.
* `interchangeable_swap`, `interchangeable_of_perm`: the places of rules.
* `bind_reordered`: passes over the same rules in another order.
-/

namespace Cookbook

/-- Whether an expression is itself a capture or a read. -/
def Expression.isAccess : Expression → Bool
  | .capture .. | .get .. => true
  | _ => false

/-- Whether the expression of a rule has a capture or a read in it. -/
def Rule.touchesContext (rule : Rule) : Bool :=
  rule.expression.walk.any Expression.isAccess

namespace Binding

variable {ancestry : Ancestry} {parameter : String}

/-! ## Rules that do not touch the context -/

theorem exists_outcomes {arguments : List (Argument Expression)}
    (ih : ∀ a ∈ arguments, ∃ outcome : Except Error Json, ∀ context,
      eval ancestry parameter a.value context = outcome.map (·, context)) :
    ∃ outcome : Except Error (List (Argument Json)), ∀ context,
      evalArguments ancestry parameter arguments context = outcome.map (·, context) := by
  induction arguments with
  | nil => exact ⟨.ok [], fun _ => rfl⟩
  | cons a arguments iha =>
    rw [List.forall_mem_cons] at ih
    obtain ⟨first, hfirst⟩ := ih.1
    obtain ⟨others, hothers⟩ := iha ih.2
    -- The outcomes put together do not depend on the context, as none of them does.
    refine ⟨do return ⟨a.label, ← first⟩ :: (← others), fun context => ?_⟩
    rw [evalArguments, hfirst]
    cases first with
    | error e => rfl
    | ok value =>
      show (evalArguments ancestry parameter arguments context >>= _) = _
      rw [hothers]
      cases others <;> rfl

/-- An expression without captures and reads has the same outcome in every context, and leaves the
context as it is. -/
theorem exists_outcome_of_walk {expression : Expression}
    (h : ∀ e ∈ expression.walk, e.isAccess = false) :
    ∃ outcome : Except Error Json, ∀ context,
      eval ancestry parameter expression context = outcome.map (·, context) := by
  -- The outcome is built up like the value: it is that of a field, of the rendering of some values,
  -- or of the branch that the test chooses.
  induction expression with
  | field base path =>
    refine ⟨fieldOf ancestry parameter base path, fun context => ?_⟩
    rw [eval]
    cases fieldOf ancestry parameter base path <;> rfl
  | literal value => exact ⟨.ok value.toJson, fun _ => rfl⟩
  | format template arguments ih =>
    obtain ⟨values, hvalues⟩ := exists_outcomes fun a ha =>
      ih a ha fun e he => h e (mem_walk_format ha he)
    refine ⟨values >>= fun values => Json.str <$> render template values, fun context => ?_⟩
    rw [eval, hvalues]
    cases values with
    | error e => rfl
    | ok values =>
      show (render template values >>= _) = Except.map _ (Json.str <$> render template values)
      cases render template values <;> rfl
  | capture key value tag ih => exact absurd (h _ (mem_walk_self _)) (by simp [Expression.isAccess])
  | get key tag => exact absurd (h _ (mem_walk_self _)) (by simp [Expression.isAccess])
  | conditional condition thenBranch otherwise ihc iht iho =>
    simp only [Expression.walk, List.forall_mem_append] at h
    obtain ⟨⟨⟨hc, ht⟩, ho⟩, -⟩ := h
    obtain ⟨test, htest⟩ := ihc hc
    obtain ⟨one, hone⟩ := iht ht
    obtain ⟨other, hother⟩ := iho ho
    refine ⟨test >>= fun test => if test.truthy then one else other, fun context => ?_⟩
    rw [eval, htest]
    cases test with
    | error e => rfl
    | ok test =>
      show (if test.truthy then _ else _) = Except.map _ (if test.truthy then one else other)
      rw [hone, hother]
      split <;> rfl

/-- A rule that does not touch the context has the same outcome wherever it stands. -/
theorem exists_outcome {rule : Rule} (h : rule.touchesContext = false) :
    ∃ outcome : Except Error Json, ∀ context,
      evalRule ancestry rule context = outcome.map (·, context) := by
  rw [Rule.touchesContext, List.any_eq_false] at h
  unfold evalRule
  cases missing? ancestry rule with
  | some name => exact ⟨.error (.missingAncestor rule.parameter name), fun _ => rfl⟩
  | none => exact exists_outcome_of_walk fun e he => Bool.eq_false_iff.mpr (h e he)

/-! ## Lists of rules that end alike -/

/-- Two bindings with the same values under the same parameters, in whatever order, and with the same
context. -/
structure Same (one other : Binding) : Prop where
  get?_eq : ∀ parameter, one.arguments.get? parameter = other.arguments.get? parameter
  context_eq : one.context = other.context

/-- Two passes that both fail, or both end well and with the same values. -/
inductive EndAlike : Except Error Binding → Except Error Binding → Prop where
  | error (e e' : Error) : EndAlike (.error e) (.error e')
  | ok {one other : Binding} : Same one other → EndAlike (.ok one) (.ok other)

/-- Two lists of rules that end alike, from bindings that are the same. -/
def Interchangeable (ancestry : Ancestry) (rules others : List Rule) : Prop :=
  ∀ ⦃one other : Binding⦄, Same one other →
    EndAlike (evalRules ancestry rules one) (evalRules ancestry others other)

variable {one other third : Binding} {rule first second : Rule}
  {rules others front front' : List Rule}

theorem Same.refl (binding : Binding) : Same binding binding :=
  ⟨fun _ => rfl, rfl⟩

theorem Same.symm (h : Same one other) : Same other one :=
  ⟨fun parameter => (h.get?_eq parameter).symm, h.context_eq.symm⟩

theorem Same.trans (h : Same one other) (hother : Same other third) : Same one third :=
  ⟨fun parameter => (h.get?_eq parameter).trans (hother.get?_eq parameter),
    h.context_eq.trans hother.context_eq⟩

/-- Whether a parameter has a value already does not matter to what is written under it. -/
theorem Same.insert (h : Same one other) (parameter : String) (value : Json) (context : Context) :
    Same ⟨one.arguments.insert parameter value, context⟩
      ⟨other.arguments.insert parameter value, context⟩ := by
  refine ⟨fun name => ?_, rfl⟩
  by_cases hname : name = parameter
  · rw [hname, OrderedMap.get?_insert_self, OrderedMap.get?_insert_self]
  · rw [OrderedMap.get?_insert_of_ne _ hname, OrderedMap.get?_insert_of_ne _ hname, h.get?_eq]

/-- Values under different parameters may be written in either order. -/
theorem same_insert_comm (arguments : OrderedMap Json) {name name' : String} (hne : name ≠ name')
    (value value' : Json) (context : Context) :
    Same ⟨(arguments.insert name value).insert name' value', context⟩
      ⟨(arguments.insert name' value').insert name value, context⟩ := by
  refine ⟨fun parameter => ?_, rfl⟩
  by_cases hname : parameter = name
  · rw [hname, OrderedMap.get?_insert_of_ne _ hne, OrderedMap.get?_insert_self,
      OrderedMap.get?_insert_self]
  · rw [OrderedMap.get?_insert_of_ne (arguments.insert name' value') hname]
    by_cases hname' : parameter = name'
    · rw [hname', OrderedMap.get?_insert_self, OrderedMap.get?_insert_self]
    · rw [OrderedMap.get?_insert_of_ne _ hname', OrderedMap.get?_insert_of_ne _ hname,
        OrderedMap.get?_insert_of_ne _ hname']

theorem EndAlike.symm {x y : Except Error Binding} (h : EndAlike x y) : EndAlike y x := by
  cases h with
  | error e e' => exact .error e' e
  | ok hsame => exact .ok hsame.symm

theorem EndAlike.trans {x y z : Except Error Binding} (h : EndAlike x y) (hother : EndAlike y z) :
    EndAlike x z := by
  cases h with
  | error e e' =>
    cases hother with
    | error => exact .error _ _
  | ok hsame =>
    cases hother with
    | ok hsame' => exact .ok (hsame.trans hsame')

theorem EndAlike.inv {x y : Except Error Binding} (h : EndAlike x y) :
    (∃ e e', x = .error e ∧ y = .error e') ∨
      ∃ one other, x = .ok one ∧ y = .ok other ∧ Same one other := by
  cases h with
  | error e e' => exact .inl ⟨e, e', rfl, rfl⟩
  | ok hsame => exact .inr ⟨_, _, rfl, rfl, hsame⟩

/-- Behind a rule that has the same outcome in both, lists of rules are interchangeable. -/
theorem Interchangeable.cons (rule : Rule) (h : Interchangeable ancestry rules others) :
    Interchangeable ancestry (rule :: rules) (rule :: others) := by
  intro one other hsame
  rw [evalRules, evalRules, hsame.context_eq]
  cases evalRule ancestry rule other.context with
  | error e => exact .error e e
  | ok outcome => exact h (hsame.insert rule.parameter outcome.1 outcome.2)

theorem interchangeable_refl (ancestry : Ancestry) (rules : List Rule) :
    Interchangeable ancestry rules rules := by
  induction rules with
  | nil => exact fun _ _ hsame => .ok hsame
  | cons rule rules ih => exact ih.cons rule

theorem Interchangeable.symm (h : Interchangeable ancestry rules others) :
    Interchangeable ancestry others rules :=
  fun _ _ hsame => (h hsame.symm).symm

theorem Interchangeable.trans {more : List Rule} (h : Interchangeable ancestry rules others)
    (hother : Interchangeable ancestry others more) : Interchangeable ancestry rules more :=
  fun _ other hsame => (h hsame).trans (hother (.refl other))

/-! ## Rules that change places -/

/-- A rule that does not touch the context changes places with the rule behind it. -/
theorem interchangeable_swap (hfirst : first.touchesContext = false)
    (hne : first.parameter ≠ second.parameter) (rules : List Rule) :
    Interchangeable ancestry (first :: second :: rules) (second :: first :: rules) := by
  intro one other hsame
  obtain ⟨outcome, houtcome⟩ := @exists_outcome ancestry first hfirst
  -- The second rule meets the same context whether the first one stands before it or not.
  simp only [evalRules, houtcome, hsame.context_eq]
  cases outcome with
  | error e => cases evalRule ancestry second other.context <;> exact .error _ _
  | ok value =>
    show EndAlike (evalRule ancestry second other.context >>= _)
      (evalRule ancestry second other.context >>= _)
    cases evalRule ancestry second other.context with
    | error e => exact .error e e
    | ok outcome =>
      obtain ⟨value', context⟩ := outcome
      refine interchangeable_refl ancestry rules ?_
      have hone : Same
          ⟨(one.arguments.insert first.parameter value).insert second.parameter value', context⟩
          ⟨(other.arguments.insert first.parameter value).insert second.parameter value', context⟩ :=
        (hsame.insert first.parameter value context).insert second.parameter value' context
      exact hone.trans (same_insert_comm other.arguments hne value value' context)

/-- A rule goes in front of rules that do not touch the context. -/
theorem interchangeable_front (hfront : ∀ first ∈ front, first.touchesContext = false)
    (hne : ∀ first ∈ front, first.parameter ≠ rule.parameter) (rules : List Rule) :
    Interchangeable ancestry (front ++ rule :: rules) (rule :: (front ++ rules)) := by
  induction front with
  | nil => exact interchangeable_refl ancestry _
  | cons first front ih =>
    rw [List.forall_mem_cons] at hfront hne
    exact ((ih hfront.2 hne.2).cons first).trans (interchangeable_swap hfront.1 hne.1 _)

/-- Rules that do not touch the context may be put in front of all others. -/
theorem interchangeable_partition (hnodup : (rules.map (·.parameter)).Nodup) :
    Interchangeable ancestry rules
      (rules.filter (!·.touchesContext) ++ rules.filter (·.touchesContext)) := by
  induction rules with
  | nil => exact interchangeable_refl ancestry []
  | cons rule rules ih =>
    rw [List.map_cons, List.nodup_cons] at hnodup
    have hrest := (ih hnodup.2).cons rule
    -- A rule that does not touch the context is first in front of the others as well. One that does
    -- has to get behind all that do not.
    cases htouches : rule.touchesContext with
    | false => simpa [htouches] using hrest
    | true =>
      have hquiet : ∀ first ∈ rules.filter (!·.touchesContext), first.touchesContext = false := by
        simp
      have hne : ∀ first ∈ rules.filter (!·.touchesContext), first.parameter ≠ rule.parameter := by
        intro first hfirst heq
        exact hnodup.1 (List.mem_map.mpr ⟨first, List.mem_of_mem_filter hfirst, heq⟩)
      have hfront : Interchangeable ancestry
          (rules.filter (!·.touchesContext) ++ rule :: rules.filter (·.touchesContext))
          (rule :: (rules.filter (!·.touchesContext) ++ rules.filter (·.touchesContext))) :=
        interchangeable_front hquiet hne _
      simpa [htouches] using hrest.trans hfront.symm

/-- Rules that do not touch the context may stand in any order. -/
theorem interchangeable_of_perm (hperm : front.Perm front')
    (hfront : ∀ rule ∈ front, rule.touchesContext = false)
    (hnodup : (front.map (·.parameter)).Nodup) (rules : List Rule) :
    Interchangeable ancestry (front ++ rules) (front' ++ rules) := by
  -- A permutation is made of swaps of neighbours, and each swap keeps the result.
  induction hperm with
  | nil => exact interchangeable_refl ancestry rules
  | cons rule _ ih =>
    rw [List.forall_mem_cons] at hfront
    rw [List.map_cons, List.nodup_cons] at hnodup
    exact (ih hfront.2 hnodup.2).cons rule
  | swap first second front =>
    rw [List.forall_mem_cons] at hfront
    simp only [List.map_cons, List.nodup_cons, List.mem_cons, not_or] at hnodup
    exact interchangeable_swap hfront.1 hnodup.1.1 _
  | @trans front middle _ hperm _ ih ih' =>
    have hmiddle : ∀ rule ∈ middle, rule.touchesContext = false := fun rule hrule =>
      hfront rule (hperm.mem_iff.mpr hrule)
    exact (ih hfront hnodup).trans (ih' hmiddle ((hperm.map _).nodup_iff.mp hnodup))

/-- The arguments are listed in the order of the rules. -/
theorem keys_evalRules {start binding : Binding} (h : evalRules ancestry rules start = .ok binding)
    (hnodup : (start.arguments.keys ++ rules.map (·.parameter)).Nodup) :
    binding.arguments.keys = start.arguments.keys ++ rules.map (·.parameter) := by
  induction rules generalizing start with
  | nil =>
    cases h
    rw [List.map_nil, List.append_nil]
  | cons rule rules ih =>
    obtain ⟨⟨value, context⟩, -, hrest⟩ := bind_eq_ok_iff.mp h
    have hnew : rule.parameter ∉ start.arguments.keys := by
      intro hmem
      exact (List.nodup_append.mp hnodup).2.2 _ hmem _ List.mem_cons_self rfl
    have hkeys : (start.arguments.insert rule.parameter value).keys ++ rules.map (·.parameter) =
        start.arguments.keys ++ (rule :: rules).map (·.parameter) := by
      rw [OrderedMap.keys_insert, if_neg hnew, List.map_cons, List.append_assoc]
      rfl
    rw [← hkeys]
    exact ih hrest (hkeys ▸ hnodup)

end Binding

open Binding

/-- The rules of a recipe may stand in any other order in which the rules that touch the context
follow one another as before. Either both passes fail, or both give the same value to every parameter
and leave the same context; each of them lists its arguments in the order of its rules. -/
theorem bind_reordered (recipe : Recipe) (rules : List Rule) (ancestry : Ancestry) (seed : Context)
    (hnodup : recipe.parameters.Nodup) (hperm : rules.Perm recipe.rules)
    (horder : rules.filter (·.touchesContext) = recipe.rules.filter (·.touchesContext)) :
    (∃ error error', recipe.bind ancestry seed = .error error ∧
      { recipe with rules := rules }.bind ancestry seed = .error error') ∨
    ∃ binding binding', recipe.bind ancestry seed = .ok binding ∧
      { recipe with rules := rules }.bind ancestry seed = .ok binding' ∧
      (∀ parameter, binding.arguments.get? parameter = binding'.arguments.get? parameter) ∧
      binding.context = binding'.context ∧
      binding.arguments.keys = recipe.parameters ∧
      binding'.arguments.keys = rules.map (·.parameter) := by
  have hnodup' : (rules.map (·.parameter)).Nodup := (hperm.map _).nodup_iff.mpr hnodup
  -- Both lists are the same but for the order of the rules that do not touch the context.
  have hquiet : Interchangeable ancestry
      (rules.filter (!·.touchesContext) ++ rules.filter (·.touchesContext))
      (recipe.rules.filter (!·.touchesContext) ++ recipe.rules.filter (·.touchesContext)) := by
    rw [horder]
    exact interchangeable_of_perm (hperm.filter _) (by simp)
      (hnodup'.sublist (List.filter_sublist.map _)) _
  have hall : Interchangeable ancestry rules recipe.rules :=
    ((interchangeable_partition hnodup').trans hquiet).trans (interchangeable_partition hnodup).symm
  have hend : EndAlike (recipe.bind ancestry seed)
      (Recipe.bind { recipe with rules := rules } ancestry seed) := hall.symm (.refl ⟨.empty, seed⟩)
  rcases hend.inv with hfail | ⟨binding, binding', hbind, hbind', hsame⟩
  · exact .inl hfail
  · exact .inr ⟨binding, binding', hbind, hbind', hsame.get?_eq, hsame.context_eq,
      keys_evalRules hbind hnodup, keys_evalRules hbind' hnodup'⟩

/-- A recipe that counts rows between rules that do not touch the context. -/
def census : Recipe where
  constraint := "Census"
  entrypoint := "main"
  dialect := .shell
  preamble := ""
  body := "wc"
  rules :=
    [⟨"unit", [], .literal (.text "rows")⟩,
      ⟨"count", ["table", "context"], .capture "rows" (.field "table" ["rows"]) .int⟩,
      ⟨"again", ["context"], .get "rows" .int⟩,
      ⟨"title", ["table"], .format "\x7b\x7d!" [⟨none, .field "table" ["title"]⟩]⟩]
  requirements := []
  source := "census.sh"

/-- The rules of the census, the two that touch the context between the others. -/
def censusRules : List Rule :=
  [⟨"title", ["table"], .format "\x7b\x7d!" [⟨none, .field "table" ["title"]⟩]⟩,
    ⟨"count", ["table", "context"], .capture "rows" (.field "table" ["rows"]) .int⟩,
    ⟨"unit", [], .literal (.text "rows")⟩,
    ⟨"again", ["context"], .get "rows" .int⟩]

/-- A table with a title and three rows. -/
def titled : Ancestry := .ofList [("table", .obj [("rows", .int 3), ("title", .str "in")])]

theorem bind_reordered_census :
    census.parameters.Nodup ∧ censusRules.Perm census.rules ∧
    censusRules.filter (·.touchesContext) = census.rules.filter (·.touchesContext) ∧
    ∃ binding binding', census.bind titled .empty = .ok binding ∧
      Recipe.bind { census with rules := censusRules } titled .empty = .ok binding' ∧
      binding.context = binding'.context ∧
      binding'.arguments.get? "title" = some (.str "in!") ∧
      binding.arguments.keys = ["unit", "count", "again", "title"] ∧
      binding'.arguments.keys = ["title", "count", "unit", "again"] := by
  have hnodup : census.parameters.Nodup := by decide
  have hperm : censusRules.Perm census.rules :=
    ((List.perm_append_comm : (censusRules.take 1 ++ censusRules.drop 1).Perm _).trans
      (.swap _ _ _)).trans (.cons _ (.cons _ (.refl _)))
  have horder : censusRules.filter (·.touchesContext) =
      census.rules.filter (·.touchesContext) := rfl
  refine ⟨hnodup, hperm, horder, ?_⟩
  -- The census binds, which excludes that both passes fail.
  have hbind : census.bind titled .empty = .ok ⟨.ofList [("unit", .str "rows"), ("count", .int 3),
      ("again", .int 3), ("title", .str "in!")], .ofList [("rows", .int 3)]⟩ := rfl
  obtain ⟨error, -, herror, -⟩ | ⟨binding, binding', hone, hother, hget, hcontext, hkeys, hkeys'⟩ :=
    bind_reordered census censusRules titled .empty hnodup hperm horder
  · cases hbind.symm.trans herror
  · cases hbind.symm.trans hone
    exact ⟨_, binding', hone, hother, hcontext, (hget "title").symm, hkeys, hkeys'⟩

end Cookbook
