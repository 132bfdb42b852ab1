import Cookbook.Proofs.Binding.LatestWrite
import Cookbook.Proofs.Binding.Reached
import Mathlib.Data.List.Find

/-!
# What a pass depends on

Of the ancestors a well-formed rule sees only those that it declares, and of the context only the
slots that it reads. So two passes over the same rules that agree there do the same, step by step:
they make the same accesses, and give the same arguments or the same error.

## Main definitions

* `OrderedMap.AgreeOn`: two maps with the same values under some keys.
* `Alike`: two computations that make the same accesses and show the same result.

## Main results

* `alike_record`: evaluations that agree on what an expression sees are alike.
* `bind_depends`: what the outcome of a pass depends on.
-/

namespace Cookbook

/-- Two maps have the same values, or none, under some keys. -/
def OrderedMap.AgreeOn {α : Type} (keys : String → Prop) (one other : OrderedMap α) : Prop :=
  ∀ key, keys key → one.get? key = other.get? key

namespace Binding

open Recorded

/-- Two computations make the same accesses and end with the same error, or both end well and with
the same visible part of the result. -/
structure Alike {α β : Type} (visible : α → β) (one other : Recorded α) : Prop where
  accesses : one.accesses = other.accesses
  outcome : one.outcome.map visible = other.outcome.map visible

section Alike

variable {α β γ δ : Type} {visible : α → γ} {result : β → δ}

theorem Alike.lift {x y : Except Error α} (h : x.map visible = y.map visible) :
    Alike visible (liftM x : Recorded α) (liftM y) :=
  ⟨rfl, h⟩

theorem Alike.pure {a b : α} (h : visible a = visible b) :
    Alike visible (Pure.pure a : Recorded α) (Pure.pure b) :=
  ⟨rfl, congrArg Except.ok h⟩

/-- Chains are alike if their first parts are, and their rests whenever the first parts end well. -/
theorem Alike.bind {x y : Recorded α} {f g : α → Recorded β} (h : Alike visible x y)
    (hrest : ∀ a b, x.outcome = .ok a → y.outcome = .ok b → visible a = visible b →
      Alike result (f a) (g b)) : Alike result (x >>= f) (y >>= g) := by
  obtain ⟨before, outcome⟩ := x
  obtain ⟨before', outcome'⟩ := y
  obtain ⟨haccesses, houtcome⟩ := h
  obtain rfl : before = before' := haccesses
  -- Both fail alike, or both go on with the same visible part.
  cases outcome with
  | error e =>
    cases outcome' with
    | error e' =>
      obtain rfl : e = e' := Except.error.inj houtcome
      exact ⟨rfl, rfl⟩
    | ok b => cases houtcome
  | ok a =>
    cases outcome' with
    | error e' => cases houtcome
    | ok b =>
      obtain ⟨hafter, hend⟩ := hrest a b rfl rfl (Except.ok.inj houtcome)
      exact ⟨congrArg (before ++ ·) hafter, hend⟩

/-- Chains with the same first part are alike if their rests are. -/
theorem Alike.same (x : Recorded α) {f g : α → Recorded β} (h : ∀ a, Alike result (f a) (g a)) :
    Alike result (x >>= f) (x >>= g) := by
  have hfirst : Alike id x x := ⟨rfl, rfl⟩
  refine hfirst.bind ?_
  rintro a b - - rfl
  exact h a

end Alike

/-! ## Steps -/

variable {keys : String → Prop} {one other left right : Context} {accesses : List Access}

/-- The same accesses take contexts that agree to contexts that agree. -/
theorem History.agreeOn (hone : History one accesses left) (hother : History other accesses right)
    (hagree : one.AgreeOn keys other) : left.AgreeOn keys right := by
  intro key hkey
  rw [hone.get?_eq, hother.get?_eq, hagree key hkey]

/-- Where contexts differ after the same accesses, they differed before, and nothing was written. -/
theorem History.differ (hone : History one accesses left) (hother : History other accesses right)
    {key : String} (h : left.get? key ≠ right.get? key) :
    one.get? key ≠ other.get? key ∧ ∀ source tag value, .write key source tag value ∉ accesses := by
  rw [hone.get?_eq, hother.get?_eq] at h
  cases hlast : lastWrite? key accesses with
  | none =>
    rw [hlast] at h
    exact ⟨h, lastWrite?_eq_none_iff.mp hlast⟩
  | some latest =>
    rw [hlast] at h
    exact absurd rfl h

theorem readSlot_congr {key : String} (h : one.get? key = other.get? key) (tag : TypeTag) :
    readSlot key tag one = readSlot key tag other := by
  simp only [readSlot, Context.get, Context.getOptional, h]

/-- Whether a value can be captured does not depend on the context. -/
theorem captureSlot_alike (key : String) (tag : TypeTag) (value : Json) :
    (captureSlot key tag value one).map (fun _ => ()) =
      (captureSlot key tag value other).map fun _ => () := by
  unfold captureSlot
  cases Slot.ofJson? tag value with
  | some slot => rfl
  | none => rfl

theorem fieldOf_congr {ancestry ancestry' : Ancestry} {base : String}
    (h : ancestry.get? base = ancestry'.get? base) (parameter : String) (path : List String) :
    fieldOf ancestry parameter base path = fieldOf ancestry' parameter base path := by
  simp only [fieldOf, h]

/-! ## Expressions -/

/-- Two ancestries have the same data, or none, for every ancestor among dependencies. -/
def SameAncestors (dependencies : List String) (ancestry ancestry' : Ancestry) : Prop :=
  ancestry.AgreeOn (fun name => name ∈ dependencies ∧ name ≠ contextName) ancestry'

variable {ancestry ancestry' : Ancestry} {parameter : String} {dependencies : List String}

/-- Alike evaluations leave contexts that agree where they agreed before. -/
theorem Alike.agreeOn {expression : Expression} {value value' : Json}
    (h : Alike Prod.fst (record ancestry parameter expression one)
      (record ancestry' parameter expression other))
    (hone : (record ancestry parameter expression one).outcome = .ok (value, left))
    (hother : (record ancestry' parameter expression other).outcome = .ok (value', right))
    (hagree : one.AgreeOn keys other) : left.AgreeOn keys right := by
  have hleft := history_record (eq_of_outcome hone)
  have hright := history_record (eq_of_outcome hother)
  rw [← h.accesses] at hright
  exact hleft.agreeOn hright hagree

theorem alike_recordArguments {arguments : List (Argument Expression)}
    (ih : ∀ a ∈ arguments, ∀ one other : Context, one.AgreeOn keys other →
      Alike Prod.fst (record ancestry parameter a.value one)
        (record ancestry' parameter a.value other))
    (hagree : one.AgreeOn keys other) :
    Alike Prod.fst (recordArguments ancestry parameter arguments one)
      (recordArguments ancestry' parameter arguments other) := by
  induction arguments generalizing one other with
  | nil => exact .pure rfl
  | cons a arguments iha =>
    rw [List.forall_mem_cons] at ih
    have hfirst := ih.1 one other hagree
    refine hfirst.bind ?_
    rintro ⟨value, left⟩ ⟨value', right⟩ hone hother rfl
    -- The contexts behind the first argument agree on the keys again, so the others are alike as
    -- well.
    have hmiddle : left.AgreeOn keys right := hfirst.agreeOn hone hother hagree
    refine (iha ih.2 hmiddle).bind ?_
    rintro ⟨values, _⟩ ⟨values', _⟩ - - rfl
    exact .pure rfl

/-- Evaluations of a well-formed expression are alike if the ancestors that it may read have the
same data and the contexts agree on the keys that it reads. -/
theorem alike_record {expression : Expression} (hwell : expression.WellFormed dependencies)
    (hancestors : SameAncestors dependencies ancestry ancestry')
    (hreads : ∀ key tag, .get key tag ∈ expression.walk → keys key)
    (hagree : one.AgreeOn keys other) :
    Alike Prod.fst (record ancestry parameter expression one)
      (record ancestry' parameter expression other) := by
  -- Parts are evaluated one after the other. Each of them leaves contexts that agree on the same
  -- keys as before, so that the hypothesis applies to the next one.
  induction expression generalizing one other with
  | field base path =>
    cases hwell with
    | field hbase hne =>
      rw [record, record, fieldOf_congr (hancestors base ⟨hbase, hne⟩)]
      exact .same _ fun value => .pure rfl
  | literal value => exact .pure rfl
  | format template arguments ih =>
    cases hwell with
    | format _ _ hvalues =>
      refine (alike_recordArguments ?_ hagree).bind ?_
      · intro a ha one other hagree
        exact ih a ha (hvalues a ha)
          (fun key tag hmem => hreads key tag (mem_walk_format ha hmem)) hagree
      · rintro ⟨values, _⟩ ⟨values', _⟩ - - rfl
        exact .same _ fun text => .pure rfl
  | capture key source tag ih =>
    cases hwell with
    | capture _ hsource =>
      refine (ih hsource (fun k t hmem => hreads k t (by simp [Expression.walk, hmem]))
        hagree).bind ?_
      rintro ⟨value, left⟩ ⟨value', right⟩ - - rfl
      -- The same value is written on both sides.
      refine (Alike.lift (captureSlot_alike key tag value)).bind ?_
      rintro last last' - - -
      exact .same _ fun _ => .pure rfl
  | get key tag =>
    rw [record, record, readSlot_congr (hagree key (hreads key tag (mem_walk_self _)))]
    exact .same _ fun slot => .same _ fun _ => .pure rfl
  | conditional condition thenBranch otherwise ihc iht iho =>
    cases hwell with
    | conditional hc ht ho =>
      -- The same branch is taken, because the tests have the same value.
      have htest := ihc hc (fun k t hmem => hreads k t (by simp [Expression.walk, hmem])) hagree
      refine htest.bind ?_
      rintro ⟨test, left⟩ ⟨test', right⟩ hone hother rfl
      have hmiddle : left.AgreeOn keys right := htest.agreeOn hone hother hagree
      dsimp only
      split
      · exact iht ht (fun k t hmem => hreads k t (by simp [Expression.walk, hmem])) hmiddle
      · exact iho ho (fun k t hmem => hreads k t (by simp [Expression.walk, hmem])) hmiddle

/-! ## Rules -/

theorem missing?_congr {rule : Rule} (h : SameAncestors rule.dependencies ancestry ancestry') :
    missing? ancestry rule = missing? ancestry' rule := by
  refine List.find?_congr fun name hname => ?_
  by_cases hcontext : name = contextName
  · simp [hcontext]
  · simp [OrderedMap.contains, h name ⟨hname, hcontext⟩]

theorem alike_recordRule {rule : Rule} (hwell : rule.WellFormed)
    (hancestors : SameAncestors rule.dependencies ancestry ancestry')
    (hreads : ∀ key tag, .get key tag ∈ rule.expression.walk → keys key)
    (hagree : one.AgreeOn keys other) :
    Alike Prod.fst (recordRule ancestry rule one) (recordRule ancestry' rule other) := by
  unfold recordRule
  rw [missing?_congr hancestors]
  cases missing? ancestry' rule with
  | some name => exact ⟨rfl, rfl⟩
  | none => exact alike_record hwell hancestors hreads hagree

/-- Passes over well-formed rules are alike if the ancestors that these declare have the same data
and the contexts agree on the keys that these read. -/
theorem alike_recordRules {rules : List Rule} (hwell : ∀ rule ∈ rules, rule.WellFormed)
    (hancestors : ∀ rule ∈ rules, SameAncestors rule.dependencies ancestry ancestry')
    (hreads : ∀ rule ∈ rules, ∀ key tag, .get key tag ∈ rule.expression.walk → keys key)
    (arguments : OrderedMap Json) (hagree : one.AgreeOn keys other) :
    Alike Binding.arguments (recordRules ancestry rules ⟨arguments, one⟩)
      (recordRules ancestry' rules ⟨arguments, other⟩) := by
  induction rules generalizing arguments one other with
  | nil => exact .pure rfl
  | cons rule rules ih =>
    rw [List.forall_mem_cons] at hwell hancestors hreads
    have hfirst := alike_recordRule hwell.1 hancestors.1 hreads.1 hagree
    refine hfirst.bind ?_
    rintro ⟨value, left⟩ ⟨value', right⟩ hone hother rfl
    have hleft := history_recordRule (eq_of_outcome hone)
    have hright := history_recordRule (eq_of_outcome hother)
    rw [← hfirst.accesses] at hright
    exact ih hwell.2 hancestors.2 hreads.2 _ (hleft.agreeOn hright hagree)

end Binding

open Binding

/-! ## Passes -/

/-- What a pass over well-formed rules does depends only on the declared ancestors and on the slots
that the rules read. Two passes that agree on these make the same accesses and end with the same
error or the same arguments; a slot in which the contexts that they leave differ is one in which
the seeds differ and which neither of them has written. -/
theorem bind_depends (recipe : Recipe) (ancestry ancestry' : Ancestry) (seed seed' : Context)
    (hwell : Lint.wellFormedReports recipe = [])
    (hancestors : ∀ rule ∈ recipe.rules, ∀ name ∈ rule.dependencies, name ≠ contextName →
      ancestry.get? name = ancestry'.get? name)
    (hseeds : ∀ key tag, .get key tag ∈ recipe.expressions → seed.get? key = seed'.get? key) :
    (recipe.record ancestry seed).accesses = (recipe.record ancestry' seed').accesses ∧
    ((∃ error, recipe.bind ancestry seed = .error error ∧
        recipe.bind ancestry' seed' = .error error) ∨
      ∃ binding binding', recipe.bind ancestry seed = .ok binding ∧
        recipe.bind ancestry' seed' = .ok binding' ∧ binding.arguments = binding'.arguments ∧
        ∀ key, binding.context.get? key ≠ binding'.context.get? key →
          seed.get? key ≠ seed'.get? key ∧
          ∀ source tag value, .write key source tag value ∉ (recipe.record ancestry seed).accesses) := by
  rw [Lint.wellFormedReports_eq_nil_iff] at hwell
  have hreads : ∀ rule ∈ recipe.rules, ∀ key tag, .get key tag ∈ rule.expression.walk →
      ∃ tag, .get key tag ∈ recipe.expressions :=
    fun rule hrule key tag hmem => ⟨tag, List.mem_flatMap.mpr ⟨rule, hrule, hmem⟩⟩
  have hagree : seed.AgreeOn (fun key => ∃ tag, .get key tag ∈ recipe.expressions) seed' := by
    rintro key ⟨tag, hmem⟩
    exact hseeds key tag hmem
  have hsame : ∀ rule ∈ recipe.rules, SameAncestors rule.dependencies ancestry ancestry' :=
    fun rule hrule name hname => hancestors rule hrule name hname.1 hname.2
  -- All three parts of the statement follow from one comparison of the two passes on record.
  have halike : Alike Binding.arguments (recipe.record ancestry seed)
      (recipe.record ancestry' seed') :=
    alike_recordRules hwell hsame hreads .empty hagree
  refine ⟨halike.accesses, ?_⟩
  -- Passes that are alike both fail or both succeed, so two of four cases remain.
  have houtcome := halike.outcome
  rw [recipe.outcome_record, recipe.outcome_record] at houtcome
  cases hone : recipe.bind ancestry seed with
  | error error =>
    rw [hone] at houtcome
    cases hother : recipe.bind ancestry' seed' with
    | error error' =>
      rw [hother] at houtcome
      obtain rfl : error = error' := Except.error.inj houtcome
      exact .inl ⟨error, rfl, rfl⟩
    | ok binding' =>
      rw [hother] at houtcome
      cases houtcome
  | ok binding =>
    rw [hone] at houtcome
    cases hother : recipe.bind ancestry' seed' with
    | error error' =>
      rw [hother] at houtcome
      cases houtcome
    | ok binding' =>
      rw [hother] at houtcome
      refine .inr ⟨binding, binding', rfl, rfl, Except.ok.inj houtcome, fun key hkey => ?_⟩
      -- Both contexts come from their seeds by the same writes.
      have hright := Recipe.history_record hother
      rw [← halike.accesses] at hright
      exact (Recipe.history_record hone).differ hright hkey

/-- The same table beside an ancestor that no rule declares. -/
def loggedTables : Ancestry :=
  .ofList [("log", .arr [.str "opened"]), ("table", .obj [("rows", .int 3)])]

/-- The same slots beside one that the pass overwrites and one that it does not touch. -/
def fullShelf : Context :=
  .ofList [("spare", .bool true), ("last", .int 7), ("dir", .string "in"), ("rows", .int 2)]

theorem bind_depends_tally :
    Lint.wellFormedReports tally = [] ∧
    ∃ binding binding', tally.bind tables shelf = .ok binding ∧
      tally.bind loggedTables fullShelf = .ok binding' ∧ binding.arguments = binding'.arguments ∧
      binding.context.get? "last" = binding'.context.get? "last" ∧
      binding.context.get? "spare" ≠ binding'.context.get? "spare" := by
  have hwell : Lint.wellFormedReports tally = [] := by decide
  have hancestors : ∀ rule ∈ tally.rules, ∀ name ∈ rule.dependencies, name ≠ contextName →
      tables.get? name = loggedTables.get? name := by
    -- The logged tables differ in an ancestor that no rule declares.
    have hnames : ∀ rule ∈ tally.rules, ∀ name ∈ rule.dependencies, name ≠ contextName →
        name = "table" := by decide
    intro rule hrule name hname hne
    rw [hnames rule hrule name hname hne]
    rfl
  have hseeds : ∀ key tag, .get key tag ∈ tally.expressions →
      shelf.get? key = fullShelf.get? key := by
    -- The full shelf differs in a slot that no rule reads.
    have hkeys : ∀ key tag, .get key tag ∈ tally.expressions → key = "rows" ∨ key = "dir" := by
      intro key tag hmem
      simp [tally, Recipe.expressions, Expression.walk, Expression.walkArguments] at hmem
      tauto
    intro key tag hmem
    rcases hkeys key tag hmem with rfl | rfl <;> rfl
  obtain ⟨-, ⟨_, herror, -⟩ | ⟨binding, binding', hone, hother, harguments, hcontexts⟩⟩ :=
    bind_depends tally tables loggedTables shelf fullShelf hwell hancestors hseeds
  · cases herror
  · refine ⟨hwell, binding, binding', hone, hother, harguments, ?_, ?_⟩
    -- Both passes write the slot, so the theorem excludes a difference there.
    · by_contra hdiffer
      have hwrite : .write "last" (.get "rows" .int) .int (.int 9) ∈
          (tally.record tables shelf).accesses := by
        have haccesses : (tally.record tables shelf).accesses = tallyAccesses := rfl
        simp [haccesses, tallyAccesses]
      exact (hcontexts "last" hdiffer).2 _ _ _ hwrite
    · cases hone
      cases hother
      decide

end Cookbook
