import Cookbook.Proofs.Binding.Safety

/-!
# The accesses of a pass

Which slots a pass writes and reads, in the order in which it does. The evaluator runs once more and
keeps a record of every capture and every read that it completes; branches that are not taken and
whatever stands behind a failure leave no trace in it.

## Main definitions

* `record`, `Recipe.record`: an evaluation and a pass with their accesses.
* `History`: what it means that accesses lead from one context to another.

## Main results

* `outcome_record`: with or without a record, an evaluation ends in the same way.
* `history_record`, `Recipe.history_record`: the accesses of an evaluation, and of a pass, lead from
  its first context to its last.
-/

namespace Cookbook

namespace Binding

/-- An access to the context that an evaluation has completed. -/
inductive Access where
  /-- A capture, with the value of its source. -/
  | write (key : String) (source : Expression) (tag : TypeTag) (value : Json)
  /-- A read, with the value that it gave. -/
  | read (key : String) (tag : TypeTag) (value : Json)

/-! ## Records -/

/-- What a computation did: the accesses that it completed, and how it ended. The accesses before a
failure are kept. -/
structure Recorded (α : Type) where
  accesses : List Access
  outcome : Except Error α

namespace Recorded

instance : Monad Recorded where
  pure a := ⟨[], .ok a⟩
  bind x f :=
    match x.outcome with
    | .ok a => ⟨x.accesses ++ (f a).accesses, (f a).outcome⟩
    | .error error => ⟨x.accesses, .error error⟩

instance : MonadLift (Except Error) Recorded where
  monadLift x := ⟨[], x⟩

/-- Puts an access on record. -/
def made (access : Access) : Recorded Unit := ⟨[access], .ok ()⟩

variable {α β : Type}

theorem outcome_bind (x : Recorded α) (f : α → Recorded β) :
    (x >>= f).outcome = x.outcome >>= fun a => (f a).outcome := by
  obtain ⟨accesses, outcome⟩ := x
  cases outcome <;> rfl

theorem eq_of_outcome {x : Recorded α} {outcome : Except Error α} (h : x.outcome = outcome) :
    x = ⟨x.accesses, outcome⟩ := by
  rw [← h]

/-- A chain that ends well is one of two parts that do, and has the accesses of both. -/
theorem bind_inv {x : Recorded α} {f : α → Recorded β} {accesses : List Access} {b : β}
    (h : x >>= f = ⟨accesses, .ok b⟩) :
    ∃ before a after, x = ⟨before, .ok a⟩ ∧ f a = ⟨after, .ok b⟩ ∧ accesses = before ++ after := by
  obtain ⟨before, outcome⟩ := x
  cases outcome with
  | ok a =>
    obtain ⟨haccesses, houtcome⟩ := Recorded.mk.inj h
    exact ⟨before, a, (f a).accesses, rfl, congrArg (Recorded.mk _) houtcome, haccesses.symm⟩
  | error e => cases (Recorded.mk.inj h).2

/-- A step without access that ends well. -/
theorem lift_inv {x : Except Error α} {accesses : List Access} {a : α}
    (h : (liftM x : Recorded α) = ⟨accesses, .ok a⟩) : accesses = [] ∧ x = .ok a := by
  obtain ⟨haccesses, houtcome⟩ := Recorded.mk.inj h
  exact ⟨haccesses.symm, houtcome⟩

end Recorded

open Recorded

mutual

/-- The value of an expression and the context after it, with the accesses on the way. -/
def record (ancestry : Ancestry) (parameter : String) :
    Expression → Context → Recorded (Json × Context)
  | .field base path, context => do
    let value ← fieldOf ancestry parameter base path
    return (value, context)
  | .literal value, context => return (value.toJson, context)
  | .format template arguments, context => do
    let (values, context) ← recordArguments ancestry parameter arguments context
    let text ← render template values
    return (.str text, context)
  | .capture key source tag, context => do
    let (value, context) ← record ancestry parameter source context
    let context ← captureSlot key tag value context
    made (.write key source tag value)
    return (value, context)
  | .get key tag, context => do
    let slot ← readSlot key tag context
    made (.read key tag slot.toJson)
    return (slot.toJson, context)
  | .conditional condition thenBranch otherwise, context => do
    let (test, context) ← record ancestry parameter condition context
    if test.truthy then record ancestry parameter thenBranch context
    else record ancestry parameter otherwise context

/-- The values of arguments, with the accesses on the way. -/
def recordArguments (ancestry : Ancestry) (parameter : String) :
    List (Argument Expression) → Context → Recorded (List (Argument Json) × Context)
  | [], context => return ([], context)
  | ⟨label, value⟩ :: arguments, context => do
    let (value, context) ← record ancestry parameter value context
    let (values, context) ← recordArguments ancestry parameter arguments context
    return (⟨label, value⟩ :: values, context)

end

/-- The value of a rule and the context after it, with the accesses on the way. -/
def recordRule (ancestry : Ancestry) (rule : Rule) (context : Context) :
    Recorded (Json × Context) :=
  match missing? ancestry rule with
  | some name => ⟨[], .error (.missingAncestor rule.parameter name)⟩
  | none => record ancestry rule.parameter rule.expression context

/-- The values of rules, with the accesses on the way. -/
def recordRules (ancestry : Ancestry) : List Rule → Binding → Recorded Binding
  | [], binding => return binding
  | rule :: rules, binding => do
    let (value, context) ← recordRule ancestry rule binding.context
    recordRules ancestry rules ⟨binding.arguments.insert rule.parameter value, context⟩

variable {ancestry : Ancestry} {parameter : String}

/-! ## The same outcome -/

theorem outcome_recordArguments {arguments : List (Argument Expression)}
    (ih : ∀ a ∈ arguments, ∀ context,
      (record ancestry parameter a.value context).outcome = eval ancestry parameter a.value context)
    (context : Context) :
    (recordArguments ancestry parameter arguments context).outcome =
      evalArguments ancestry parameter arguments context := by
  induction arguments generalizing context with
  | nil => rfl
  | cons a arguments iha =>
    rw [List.forall_mem_cons] at ih
    rw [recordArguments, evalArguments, outcome_bind, ih.1]
    simp only [outcome_bind, iha ih.2]
    rfl

/-- With or without a record, an evaluation ends in the same way. -/
theorem outcome_record (expression : Expression) (context : Context) :
    (record ancestry parameter expression context).outcome =
      eval ancestry parameter expression context := by
  -- The two evaluations take the same steps; an outcome goes from one step to the next by
  -- `outcome_bind`.
  induction expression generalizing context with
  | field base path =>
    rw [record, eval, outcome_bind]
    rfl
  | literal value => rfl
  | format template arguments ih =>
    rw [record, eval, outcome_bind, outcome_recordArguments ih]
    simp only [outcome_bind]
    rfl
  | capture key source tag ih =>
    rw [record, eval, outcome_bind, ih]
    simp only [outcome_bind]
    rfl
  | get key tag =>
    rw [record, eval, outcome_bind]
    simp only [outcome_bind]
    rfl
  | conditional condition thenBranch otherwise ihc iht iho =>
    rw [record, eval, outcome_bind, ihc]
    refine congrArg _ (funext fun (test, middle) => ?_)
    dsimp only
    split
    · exact iht middle
    · exact iho middle

theorem outcome_recordRule (rule : Rule) (context : Context) :
    (recordRule ancestry rule context).outcome = evalRule ancestry rule context := by
  unfold recordRule evalRule
  cases missing? ancestry rule with
  | some name => rfl
  | none => exact outcome_record rule.expression context

theorem outcome_recordRules (rules : List Rule) (binding : Binding) :
    (recordRules ancestry rules binding).outcome = evalRules ancestry rules binding := by
  induction rules generalizing binding with
  | nil => rfl
  | cons rule rules ih =>
    rw [recordRules, evalRules, outcome_bind, outcome_recordRule]
    simp only [ih]

/-! ## Histories -/

/-- Accesses lead from one context to another: a capture writes the slot that its value makes, and a
read gives the value of the slot that is there. -/
inductive History : Context → List Access → Context → Prop where
  | nil {context : Context} : History context [] context
  | write {key : String} {source : Expression} {tag : TypeTag} {value : Json} {slot : Slot}
      {context last : Context} {accesses : List Access} :
      Slot.ofJson? tag value = some slot → History (context.capture key slot) accesses last →
      History context (.write key source tag value :: accesses) last
  | read {key : String} {slot : Slot} {context last : Context} {accesses : List Access} :
      context.get? key = some slot → History context accesses last →
      History context (.read key slot.tag slot.toJson :: accesses) last

variable {context middle last : Context} {before after accesses : List Access}

theorem History.append (hbefore : History context before middle)
    (hafter : History middle after last) : History context (before ++ after) last := by
  induction hbefore with
  | nil => exact hafter
  | write hslot _ ih => exact .write hslot (ih hafter)
  | read hslot _ ih => exact .read hslot (ih hafter)

theorem History.split (h : History context (before ++ after) last) :
    ∃ middle, History context before middle ∧ History middle after last := by
  induction before generalizing context with
  | nil => exact ⟨context, .nil, h⟩
  | cons access before ih =>
    cases h with
    | write hslot h =>
      obtain ⟨middle, hbefore, hafter⟩ := ih h
      exact ⟨middle, .write hslot hbefore, hafter⟩
    | read hslot h =>
      obtain ⟨middle, hbefore, hafter⟩ := ih h
      exact ⟨middle, .read hslot hbefore, hafter⟩

/-! ## One access -/

theorem history_write {key : String} {source : Expression} {tag : TypeTag} {value : Json}
    (h : captureSlot key tag value context = .ok last) :
    History context [.write key source tag value] last := by
  unfold captureSlot at h
  split at h
  · next hslot =>
    cases h
    exact .write hslot .nil
  · cases h

theorem get?_of_readSlot {key : String} {tag : TypeTag} {slot : Slot}
    (h : readSlot key tag context = .ok slot) : context.get? key = some slot ∧ slot.tag = tag := by
  unfold readSlot Context.get Context.getOptional at h
  cases hfound : context.get? key with
  | none => simp [hfound] at h
  | some found =>
    by_cases htag : found.tag = tag
    · simp only [hfound, htag, if_true, Except.ok.injEq] at h
      exact h ▸ ⟨rfl, htag⟩
    · simp [hfound, htag] at h

theorem history_read {key : String} {tag : TypeTag} {slot : Slot}
    (h : readSlot key tag context = .ok slot) :
    History context [.read key tag slot.toJson] context := by
  obtain ⟨hslot, rfl⟩ := get?_of_readSlot h
  exact .read hslot .nil

/-! ## The accesses of an evaluation -/

theorem history_recordArguments {arguments : List (Argument Expression)}
    {values : List (Argument Json)}
    (ih : ∀ a ∈ arguments, ∀ context accesses value last,
      record ancestry parameter a.value context = ⟨accesses, .ok (value, last)⟩ →
      History context accesses last)
    (h : recordArguments ancestry parameter arguments context = ⟨accesses, .ok (values, last)⟩) :
    History context accesses last := by
  induction arguments generalizing context accesses values with
  | nil =>
    cases h
    exact .nil
  | cons a arguments iha =>
    rw [List.forall_mem_cons] at ih
    obtain ⟨before, ⟨value, middle⟩, after, hvalue, hrest, rfl⟩ := bind_inv h
    obtain ⟨others, ⟨values, final⟩, none, hothers, hend, rfl⟩ := bind_inv hrest
    cases hend
    rw [List.append_nil]
    exact (ih.1 _ _ _ _ hvalue).append (iha ih.2 hothers)

/-- The accesses of an evaluation lead from its first context to its last. -/
theorem history_record {expression : Expression} {value : Json}
    (h : record ancestry parameter expression context = ⟨accesses, .ok (value, last)⟩) :
    History context accesses last := by
  -- The history of the parts comes first; only captures and reads add to it.
  induction expression generalizing context accesses value last with
  | field base path =>
    obtain ⟨before, _, after, hfield, hend, rfl⟩ := bind_inv h
    obtain ⟨rfl, -⟩ := lift_inv hfield
    cases hend
    exact .nil
  | literal _ =>
    cases h
    exact .nil
  | format template arguments ih =>
    obtain ⟨before, ⟨values, middle⟩, after, harguments, hrest, rfl⟩ := bind_inv h
    obtain ⟨none, text, _, hrender, hend, rfl⟩ := bind_inv hrest
    obtain ⟨rfl, -⟩ := lift_inv hrender
    cases hend
    exact (history_recordArguments (fun a ha _ _ _ _ => ih a ha) harguments).append .nil
  | capture key source tag ih =>
    obtain ⟨before, ⟨written, middle⟩, after, hsource, hrest, rfl⟩ := bind_inv h
    obtain ⟨none, final, _, hcapture, hend, rfl⟩ := bind_inv hrest
    obtain ⟨rfl, hwrite⟩ := lift_inv hcapture
    cases hend
    exact (ih hsource).append (history_write hwrite)
  | get key tag =>
    obtain ⟨before, slot, after, hread, hend, rfl⟩ := bind_inv h
    obtain ⟨rfl, hslot⟩ := lift_inv hread
    cases hend
    exact history_read hslot
  | conditional condition thenBranch otherwise ihc iht iho =>
    obtain ⟨before, ⟨test, middle⟩, after, hcondition, hbranch, rfl⟩ := bind_inv h
    dsimp only at hbranch
    split at hbranch
    · exact (ihc hcondition).append (iht hbranch)
    · exact (ihc hcondition).append (iho hbranch)

theorem history_recordRule {rule : Rule} {value : Json}
    (h : recordRule ancestry rule context = ⟨accesses, .ok (value, last)⟩) :
    History context accesses last := by
  unfold recordRule at h
  split at h
  · cases h
  · exact history_record h

/-- The accesses of a pass lead from its seed to the context that it leaves. -/
theorem history_recordRules {rules : List Rule} {start binding : Binding}
    (h : recordRules ancestry rules start = ⟨accesses, .ok binding⟩) :
    History start.context accesses binding.context := by
  induction rules generalizing start accesses with
  | nil =>
    cases h
    exact .nil
  | cons rule rules ih =>
    obtain ⟨before, ⟨value, middle⟩, after, hrule, hrest, rfl⟩ := bind_inv h
    exact (history_recordRule hrule).append (ih hrest)

end Binding

open Binding

/-- A pass over the rules of a recipe, with its accesses. -/
def Recipe.record (recipe : Recipe) (ancestry : Ancestry) (seed : Context) : Recorded Binding :=
  recordRules ancestry recipe.rules ⟨.empty, seed⟩

/-- With or without a record, a pass ends in the same way. -/
theorem Recipe.outcome_record (recipe : Recipe) (ancestry : Ancestry) (seed : Context) :
    (recipe.record ancestry seed).outcome = recipe.bind ancestry seed :=
  outcome_recordRules recipe.rules ⟨.empty, seed⟩

/-- The accesses of a pass that succeeds lead from its seed to the context that it leaves. -/
theorem Recipe.history_record {recipe : Recipe} {ancestry : Ancestry} {seed : Context}
    {binding : Binding} (h : recipe.bind ancestry seed = .ok binding) :
    History seed (recipe.record ancestry seed).accesses binding.context :=
  history_recordRules (Recorded.eq_of_outcome ((recipe.outcome_record ancestry seed).trans h))

end Cookbook
