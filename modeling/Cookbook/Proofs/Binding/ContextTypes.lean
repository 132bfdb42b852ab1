import Cookbook.Proofs.Binding.Reached
import Cookbook.Proofs.Lint.TypeReports

/-!
# Slots keep their types

A registry binds its recipes pass by pass, each pass starting from slots that earlier ones have left.
If the checks of types report nothing, then in all passes of a run every slot has the one type at
which the registry captures its key. No read finds a slot of another type, so a mismatch is always
the fault of a capture whose value is not of the type that it declares.

## Main results

* `typed_eval`, `typed_mergeAll`: what an evaluation and a merge keep.
* `run_safe`: what holds of every pass of a run.
-/

namespace Cookbook

open Binding

/-- Every slot has the one type at which the registry captures its key. -/
def Context.Typed (registry : Registry) (context : Context) : Prop :=
  ∀ key slot, context.get? key = some slot → ∀ tag, registry.Writes key tag ↔ tag = slot.tag

variable {registry : Registry} {context : Context}

/-! ## Writing slots -/

theorem typed_empty : Context.Typed registry .empty := by
  intro key slot hslot
  cases hslot

theorem typed_insert {key : String} {slot : Slot} (htyped : context.Typed registry)
    (hslot : ∀ tag, registry.Writes key tag ↔ tag = slot.tag) :
    Context.Typed registry (context.insert key slot) := by
  intro other found hfound
  by_cases hkey : other = key
  · subst hkey
    rw [OrderedMap.get?_insert_self] at hfound
    obtain rfl := Option.some.inj hfound
    exact hslot
  · rw [OrderedMap.get?_insert_of_ne _ hkey] at hfound
    exact htyped other found hfound

/-- A capture that the registry holds writes a slot of the right type. -/
theorem typed_captureSlot (hconsistent : registry.Consistent) {key : String} {tag : TypeTag}
    {value : Json} {after : Context} (hwrites : registry.Writes key tag)
    (htyped : context.Typed registry) (h : captureSlot key tag value context = .ok after) :
    after.Typed registry := by
  unfold captureSlot at h
  split at h
  · next slot hslot =>
    cases h
    refine typed_insert htyped fun other => ?_
    rw [Slot.tag_of_ofJson? hslot]
    constructor
    · intro hother
      exact hconsistent.written key other tag hother hwrites
    · rintro rfl
      exact hwrites
  · cases h

/-! ## Merging contexts -/

/-- A merge of contexts with slots of the right types has such slots only. -/
theorem typed_merge {left : Context} (htyped : context.Typed registry)
    (hleft : left.Typed registry) : (context.merge left).Typed registry := by
  -- Every entry that is taken over is a slot of the other context.
  have hentries : ∀ entry ∈ left.entries, ∀ tag, registry.Writes entry.1 tag ↔ tag = entry.2.tag :=
    fun entry hentry => hleft entry.1 entry.2 (OrderedMap.find?_of_mem left.nodup hentry)
  rw [Context.merge]
  generalize left.entries = entries at hentries
  induction entries generalizing context with
  | nil => exact htyped
  | cons entry entries ih =>
    rw [List.forall_mem_cons] at hentries
    rw [List.foldl_cons]
    exact ih (typed_insert htyped hentries.1) hentries.2

theorem typed_mergeAll {upstream : List Context} (h : ∀ left ∈ upstream, left.Typed registry) :
    (Context.mergeAll upstream).Typed registry := by
  have hstart : Context.Typed registry .empty := typed_empty
  rw [Context.mergeAll]
  generalize (OrderedMap.empty : Context) = start at hstart ⊢
  induction upstream generalizing start with
  | nil => exact hstart
  | cons left upstream ih =>
    rw [List.forall_mem_cons] at h
    rw [List.foldl_cons]
    exact ih h.2 _ (typed_merge hstart h.1)

/-! ## Evaluation -/

/-- The registry holds every capture of an expression. -/
def Registry.Holds (registry : Registry) (expression : Expression) : Prop :=
  ∀ key value tag, .capture key value tag ∈ expression.walk → registry.Writes key tag

theorem Registry.Holds.mono {expression sub : Expression} (h : registry.Holds expression)
    (hwalk : ∀ e ∈ sub.walk, e ∈ expression.walk) : registry.Holds sub :=
  fun key value tag hmem => h key value tag (hwalk _ hmem)

variable {ancestry : Ancestry} {parameter : String} {expression sub : Expression}
  {after reached : Context}

/-- Arguments hand the context on, so what each of them keeps, they keep together. -/
theorem evalArguments_keeps {P : Context → Prop} {arguments : List (Argument Expression)}
    (hkeeps : ∀ a ∈ arguments, ∀ before value next, P before →
      eval ancestry parameter a.value before = .ok (value, next) → P next)
    (hcontext : P context) {values : List (Argument Json)}
    (h : evalArguments ancestry parameter arguments context = .ok (values, after)) : P after := by
  induction arguments generalizing context values with
  | nil =>
    cases h
    exact hcontext
  | cons a arguments ih =>
    obtain ⟨⟨value, next⟩, hvalue, h⟩ := bind_eq_ok_iff.mp h
    obtain ⟨⟨others, last⟩, hothers, h⟩ := bind_eq_ok_iff.mp h
    cases h
    rw [List.forall_mem_cons] at hkeeps
    have hnext : P next := hkeeps.1 context value next hcontext hvalue
    exact ih hkeeps.2 hnext hothers

/-- An evaluation leaves slots of the right types. -/
theorem typed_eval (hconsistent : registry.Consistent) (hholds : registry.Holds expression)
    (htyped : context.Typed registry) {value : Json}
    (h : eval ancestry parameter expression context = .ok (value, after)) :
    after.Typed registry := by
  -- Only a capture writes. Every other expression hands on the contexts of its parts, one after the
  -- other, and the checks of a registry are about every sub-expression.
  induction expression generalizing context value after with
  | field base path =>
    obtain ⟨_, -, h⟩ := bind_eq_ok_iff.mp h
    cases h
    exact htyped
  | literal _ =>
    cases h
    exact htyped
  | format template arguments ih =>
    obtain ⟨⟨values, middle⟩, harguments, h⟩ := bind_eq_ok_iff.mp h
    obtain ⟨_, -, h⟩ := bind_eq_ok_iff.mp h
    cases h
    refine evalArguments_keeps ?_ htyped harguments
    intro a ha before value next hbefore hvalue
    exact ih a ha (hholds.mono fun e he => mem_walk_format ha he) hbefore hvalue
  | capture key inner tag ih =>
    obtain ⟨⟨written, middle⟩, hvalue, h⟩ := bind_eq_ok_iff.mp h
    obtain ⟨last, hcapture, h⟩ := bind_eq_ok_iff.mp h
    cases h
    have hmiddle : middle.Typed registry :=
      ih (hholds.mono fun e he => by simp [Expression.walk, he]) htyped hvalue
    have hwrites : registry.Writes key tag := hholds key inner tag (mem_walk_self _)
    exact typed_captureSlot hconsistent hwrites hmiddle hcapture
  | get key tag =>
    obtain ⟨_, -, h⟩ := bind_eq_ok_iff.mp h
    cases h
    exact htyped
  | conditional condition thenBranch otherwise ihc iht iho =>
    obtain ⟨⟨test, middle⟩, hcondition, h⟩ := bind_eq_ok_iff.mp h
    have hmiddle : middle.Typed registry :=
      ihc (hholds.mono fun e he => by simp [Expression.walk, he]) htyped hcondition
    dsimp only at h
    split at h
    · exact iht (hholds.mono fun e he => by simp [Expression.walk, he]) hmiddle h
    · exact iho (hholds.mono fun e he => by simp [Expression.walk, he]) hmiddle h

/-- Whatever an evaluation reaches, it reaches with slots of the right types. -/
theorem typed_of_reaches (hconsistent : registry.Consistent) (hholds : registry.Holds expression)
    (htyped : context.Typed registry)
    (h : Reaches ancestry parameter expression context sub reached) : reached.Typed registry := by
  -- What is evaluated first, such as the arguments before or a condition, leaves slots of the right
  -- types by `typed_eval`.
  induction h with
  | here => exact htyped
  | @argument template before following a values context middle reached sub hbefore _ ih =>
    have hmem : ∀ b ∈ a :: before, b ∈ before ++ a :: following := by
      intro b hb
      rcases List.mem_cons.mp hb with rfl | hb <;> simp_all
    have hmiddle : middle.Typed registry := by
      refine evalArguments_keeps ?_ htyped hbefore
      intro b hb _ _ _ hstart hvalue
      have hb : b ∈ before ++ a :: following := hmem b (List.mem_cons_of_mem _ hb)
      exact typed_eval hconsistent (hholds.mono fun e he => mem_walk_format hb he) hstart hvalue
    have ha : a ∈ before ++ a :: following := hmem a List.mem_cons_self
    exact ih (hholds.mono fun e he => mem_walk_format ha he) hmiddle
  | captured _ ih => exact ih (hholds.mono fun e he => by simp [Expression.walk, he]) htyped
  | condition _ ih => exact ih (hholds.mono fun e he => by simp [Expression.walk, he]) htyped
  | branch hcondition _ ih =>
    refine ih (hholds.mono fun e he => ?_) ?_
    · split at he <;> simp [Expression.walk, he]
    · exact typed_eval hconsistent (hholds.mono fun e he => by simp [Expression.walk, he]) htyped
        hcondition

/-- A read that the registry holds never finds a slot of another type. -/
theorem readSlot_ne_typeMismatch (hconsistent : registry.Consistent) {recipe : Recipe}
    (hrecipe : recipe ∈ registry.recipes) {key : String} {tag : TypeTag}
    (hread : .get key tag ∈ recipe.expressions) (htyped : context.Typed registry)
    (other : String) (expected : TypeTag) (found : String) :
    readSlot key tag context ≠ .error (.typeMismatch other expected found) := by
  intro h
  unfold readSlot Context.get Context.getOptional at h
  cases hslot : context.get? key with
  | none => simp [hslot] at h
  | some slot =>
    -- The slot has the type at which its key is captured, and the read asks for that type.
    have hwrites : registry.Writes key slot.tag := (htyped key slot hslot slot.tag).mpr rfl
    have htag : tag = slot.tag := hconsistent.read recipe hrecipe key tag hread slot.tag hwrites
    simp [hslot, htag] at h

/-! ## Passes -/

/-- A pass: a recipe is bound, starting from what some earlier passes left together. -/
structure Pass where
  recipe : Recipe
  ancestry : Ancestry
  /-- The contexts that the earlier passes left. -/
  upstream : List Context

namespace Pass

/-- The slots that a pass starts from. -/
def seed (pass : Pass) : Context :=
  Context.mergeAll pass.upstream

/-- The outcome of a pass. -/
def bind (pass : Pass) : Except Error Binding :=
  pass.recipe.bind pass.ancestry pass.seed

/-- A pass comes to evaluate a sub-expression of one of its rules from a context. -/
def Reaches (pass : Pass) (rule : Rule) (sub : Expression) (reached : Context) : Prop :=
  ∃ before after middle, pass.recipe.rules = before ++ rule :: after ∧
    evalRules pass.ancestry before ⟨.empty, pass.seed⟩ = .ok middle ∧
    missing? pass.ancestry rule = none ∧
    Binding.Reaches pass.ancestry rule.parameter rule.expression middle.context sub reached

/-- What the types of slots mean for one pass. -/
structure Safe (registry : Registry) (pass : Pass) : Prop where
  /-- Its slots have the right types at the start. -/
  seed : pass.seed.Typed registry
  /-- They have the right types at the end, if it succeeds. -/
  left : ∀ binding, pass.bind = .ok binding → binding.context.Typed registry
  /-- No read that it reaches finds a slot of another type. -/
  read : ∀ rule key tag reached, pass.Reaches rule (.get key tag) reached →
    ∀ other expected found, eval pass.ancestry rule.parameter (.get key tag) reached ≠
      .error (.typeMismatch other expected found)
  /-- A mismatch comes from a capture that it reaches and whose value is not of its type. -/
  mismatch : ∀ key expected found, pass.bind = .error (.typeMismatch key expected found) →
    ∃ rule value reached written after, pass.Reaches rule (.capture key value expected) reached ∧
      eval pass.ancestry rule.parameter value reached = .ok (written, after) ∧
      Slot.ofJson? expected written = none ∧ found = written.typeName

end Pass

/-! ## Rules -/

theorem holds_of_mem {recipe : Recipe} {rule : Rule} (hrecipe : recipe ∈ registry.recipes)
    (hrule : rule ∈ recipe.rules) : registry.Holds rule.expression :=
  fun _ value _ hmem => ⟨recipe, hrecipe, value, List.mem_flatMap.mpr ⟨rule, hrule, hmem⟩⟩

/-- Rules leave slots of the right types. -/
theorem typed_evalRules (hconsistent : registry.Consistent) {rules : List Rule}
    (hholds : ∀ rule ∈ rules, registry.Holds rule.expression) {start binding : Binding}
    (htyped : start.context.Typed registry) (h : evalRules ancestry rules start = .ok binding) :
    binding.context.Typed registry := by
  induction rules generalizing start with
  | nil =>
    cases h
    exact htyped
  | cons rule rules ih =>
    obtain ⟨⟨value, next⟩, hrule, h⟩ := bind_eq_ok_iff.mp h
    rw [List.forall_mem_cons] at hholds
    refine ih hholds.2 ?_ h
    unfold evalRule at hrule
    split at hrule
    · cases hrule
    · exact typed_eval hconsistent hholds.1 htyped hrule

/-- A pass that starts from slots of the right types is safe. -/
theorem safe_of_typed_seed (hconsistent : registry.Consistent) {pass : Pass}
    (hrecipe : pass.recipe ∈ registry.recipes) (hseed : pass.seed.Typed registry) :
    pass.Safe registry := by
  have hholds : ∀ rule ∈ pass.recipe.rules, registry.Holds rule.expression :=
    fun rule hrule => holds_of_mem hrecipe hrule
  have hread : ∀ rule key tag reached, pass.Reaches rule (.get key tag) reached →
      ∀ other expected found,
        readSlot key tag reached ≠ .error (.typeMismatch other expected found) := by
    rintro rule key tag reached ⟨before, after, middle, hrules, hbefore, -, hreaches⟩
    have hsplit : ∀ r ∈ before ++ rule :: after, registry.Holds r.expression := hrules ▸ hholds
    rw [List.forall_mem_append, List.forall_mem_cons] at hsplit
    have hmiddle : middle.context.Typed registry :=
      typed_evalRules hconsistent hsplit.1 hseed hbefore
    have hmem : .get key tag ∈ pass.recipe.expressions :=
      List.mem_flatMap.mpr ⟨rule, by simp [hrules], hreaches.mem_walk⟩
    exact readSlot_ne_typeMismatch hconsistent hrecipe hmem
      (typed_of_reaches hconsistent hsplit.2.1 hmiddle hreaches)
  refine ⟨hseed, ?_, ?_, ?_⟩
  · intro binding hbind
    exact typed_evalRules hconsistent hholds hseed hbind
  · intro rule key tag reached hreaches other expected found h
    rcases bind_eq_error_iff.mp h with h | ⟨_, -, h⟩
    · exact hread rule key tag reached hreaches other expected found h
    · cases h
  · intro key expected found hbind
    obtain ⟨before, rule, after, middle, hrules, hbefore, hrule⟩ := evalRules_eq_error_iff.mp hbind
    unfold evalRule at hrule
    split at hrule
    · cases hrule
    · next hpresent =>
      -- The error comes from a sub-expression that binding reaches. A read is typed, so it is a
      -- capture.
      obtain ⟨sub, reached, hreaches, hfails⟩ := exists_reaches_of_typeMismatch hrule
      have hreached : pass.Reaches rule sub reached :=
        ⟨before, after, middle, hrules, hbefore, hpresent, hreaches⟩
      cases hfails with
      | @capture value written _ last hvalue hnone hfound =>
        exact ⟨rule, value, reached, written, last, hreached, hvalue, hnone, hfound⟩
      | get hget => exact absurd hget (hread rule key expected reached hreached key expected found)

/-! ## Runs -/

/-- A run of passes over a registry, and the contexts that its successful passes left. Each pass
starts from contexts that some earlier passes left, in any order and number. -/
inductive Registry.Run (registry : Registry) : List Pass → List Context → Prop where
  | start : Run registry [] []
  | succeed {passes : List Pass} {left : List Context} {pass : Pass} {binding : Binding} :
      Run registry passes left → pass.recipe ∈ registry.recipes →
      (∀ context ∈ pass.upstream, context ∈ left) → pass.bind = .ok binding →
      Run registry (passes ++ [pass]) (left ++ [binding.context])
  | fail {passes : List Pass} {left : List Context} {pass : Pass} {error : Error} :
      Run registry passes left → pass.recipe ∈ registry.recipes →
      (∀ context ∈ pass.upstream, context ∈ left) → pass.bind = .error error →
      Run registry (passes ++ [pass]) left

/-- One more pass of a run is safe, if the contexts left so far have slots of the right types. -/
theorem safe_step (hconsistent : registry.Consistent) {pass : Pass} {left : List Context}
    (hleft : ∀ context ∈ left, context.Typed registry) (hrecipe : pass.recipe ∈ registry.recipes)
    (hupstream : ∀ context ∈ pass.upstream, context ∈ left) : pass.Safe registry :=
  safe_of_typed_seed hconsistent hrecipe
    (typed_mergeAll fun context hmem => hleft context (hupstream context hmem))

/-- What a run has left, and what its passes were. -/
theorem safe_of_run (hconsistent : registry.Consistent) {passes : List Pass} {left : List Context}
    (hrun : registry.Run passes left) :
    (∀ context ∈ left, context.Typed registry) ∧ ∀ pass ∈ passes, pass.Safe registry := by
  induction hrun with
  | start => exact ⟨fun _ h => (List.not_mem_nil h).elim, fun _ h => (List.not_mem_nil h).elim⟩
  | succeed _ hrecipe hupstream hbind ih =>
    have hsafe := safe_step hconsistent ih.1 hrecipe hupstream
    simp only [List.forall_mem_append, List.forall_mem_singleton]
    exact ⟨⟨ih.1, hsafe.left _ hbind⟩, ih.2, hsafe⟩
  | fail _ hrecipe hupstream _ ih =>
    have hsafe := safe_step hconsistent ih.1 hrecipe hupstream
    simp only [List.forall_mem_append, List.forall_mem_singleton]
    exact ⟨ih.1, ih.2, hsafe⟩

/-- If the recipes of each artifact share their rules and the checks of types report nothing, every
pass of every run keeps the types of slots. -/
theorem run_safe (registry : Registry) (config : Lint.Config) (hshares : registry.SharesRules)
    (hsilent : ∀ report ∈ registry.lint config,
      report.check ≠ .captureTypeConflict ∧ report.check ≠ .getTypeMismatch)
    (passes : List Pass) (left : List Context) (hrun : registry.Run passes left) :
    (∀ context ∈ left, context.Typed registry) ∧ ∀ pass ∈ passes, pass.Safe registry :=
  safe_of_run (Lint.consistent_of_silent hshares hsilent) hrun

/-- Two recipes of one artifact that keep a number of rows, and a recipe that reads it. -/
def tallies : List Recipe :=
  let count : Recipe :=
    { constraint := "Count", entrypoint := "main", dialect := .shell, preamble := "", body := "wc",
      rules := [⟨"rows", ["table", "context"], .capture "rows" (.field "table" ["rows"]) .int⟩],
      requirements := [], source := "count.sh" }
  let limit : Recipe :=
    { constraint := "Limit", entrypoint := "main", dialect := .shell, preamble := "", body := "head",
      rules := [⟨"limit", ["context"], .get "rows" .int⟩], requirements := [],
      source := "limit.sh" }
  [count, { count with constraint := "Recount" }, limit]

/-- The recipe that counts, with a table that has a number of rows, and with one that has none. -/
def countPass (rows : Json) : Pass where
  recipe := tallies.head!
  ancestry := .ofList [("table", .obj [("rows", rows)])]
  upstream := []

/-- The recipe that reads the number, after two passes that counted. -/
def limitPass (left : List Context) : Pass where
  recipe := tallies.getLast!
  ancestry := .empty
  upstream := left

theorem run_safe_tallies :
    let registry := Registry.empty.registerRecipes tallies
    let three : Context := .ofList [("rows", .int 3)]
    let four : Context := .ofList [("rows", .int 4)]
    let passes := [countPass (.int 3), countPass (.int 4), limitPass [four, three],
      countPass (.str "many")]
    registry.SharesRules ∧
    (∀ report ∈ registry.lint ⟨none⟩,
      report.check ≠ .captureTypeConflict ∧ report.check ≠ .getTypeMismatch) ∧
    registry.Run passes [three, four, three] ∧ ∀ pass ∈ passes, pass.Safe registry := by
  intro registry three four passes
  have hshares : registry.SharesRules := by
    -- The artifact of a recipe tells its rules.
    have hrules : ∀ recipe ∈ tallies, recipe.rules =
        if recipe.source = "count.sh" then tallies.head!.rules else tallies.getLast!.rules := by
      simp [tallies]
    intro recipe hrecipe other hother hsource
    rw [hrules recipe hrecipe, hrules other hother, hsource]
  have hsilent : ∀ report ∈ registry.lint ⟨none⟩,
      report.check ≠ .captureTypeConflict ∧ report.check ≠ .getTypeMismatch := by
    decide
  have hthree : (countPass (.int 3)).bind = .ok ⟨.ofList [("rows", .int 3)], three⟩ := rfl
  have hfour : (countPass (.int 4)).bind = .ok ⟨.ofList [("rows", .int 4)], four⟩ := rfl
  -- The later of the contexts that the third pass starts from counts.
  have hlimit : (limitPass [four, three]).bind = .ok ⟨.ofList [("limit", .int 3)], three⟩ := rfl
  have hmany : (countPass (.str "many")).bind = .error (.typeMismatch "rows" .int "string") := rfl
  have hcount : tallies.head! ∈ registry.recipes := .head _
  have hread : tallies.getLast! ∈ registry.recipes := .tail _ (.tail _ (.head _))
  have hfirst : registry.Run ([] ++ [countPass (.int 3)]) ([] ++ [three]) :=
    .succeed .start hcount (by simp [countPass]) hthree
  have hsecond := Registry.Run.succeed hfirst hcount (by simp [countPass]) hfour
  have hthird := Registry.Run.succeed hsecond hread (by simp [limitPass]) hlimit
  have hrun : registry.Run passes [three, four, three] :=
    .fail hthird hcount (by simp [countPass]) hmany
  exact ⟨hshares, hsilent, hrun, (run_safe registry ⟨none⟩ hshares hsilent _ _ hrun).2⟩

end Cookbook
