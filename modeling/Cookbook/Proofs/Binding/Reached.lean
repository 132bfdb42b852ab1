import Cookbook.Proofs.Binding.Safety

/-!
# What an evaluation reaches

The evaluation of an expression comes to evaluate some of its sub-expressions, each from the context
that those before it have left. Sub-expressions behind a failure, and branches that are not taken,
are not reached.

## Main results

* `Reaches.mem_walk`: what is reached is a sub-expression.
* `exists_reaches_of_typeMismatch`: a mismatch comes from a capture or a read that is reached.
-/

namespace Cookbook.Binding

/-- Evaluating an expression from a context comes to evaluate a sub-expression from another one. -/
inductive Reaches (ancestry : Ancestry) (parameter : String) :
    Expression → Context → Expression → Context → Prop where
  | here {expression : Expression} {context : Context} :
      Reaches ancestry parameter expression context expression context
  /-- An argument is reached once those before it have values. -/
  | argument {template : String} {before after : List (Argument Expression)}
      {a : Argument Expression} {values : List (Argument Json)} {context middle reached : Context}
      {sub : Expression} :
      evalArguments ancestry parameter before context = .ok (values, middle) →
      Reaches ancestry parameter a.value middle sub reached →
      Reaches ancestry parameter (.format template (before ++ a :: after)) context sub reached
  | captured {key : String} {value sub : Expression} {tag : TypeTag} {context reached : Context} :
      Reaches ancestry parameter value context sub reached →
      Reaches ancestry parameter (.capture key value tag) context sub reached
  | condition {condition thenBranch otherwise sub : Expression} {context reached : Context} :
      Reaches ancestry parameter condition context sub reached →
      Reaches ancestry parameter (.conditional condition thenBranch otherwise) context sub reached
  /-- One branch is reached, and the value of the condition tells which. -/
  | branch {condition thenBranch otherwise sub : Expression} {test : Json}
      {context middle reached : Context} :
      eval ancestry parameter condition context = .ok (test, middle) →
      Reaches ancestry parameter (if test.truthy then thenBranch else otherwise) middle sub reached →
      Reaches ancestry parameter (.conditional condition thenBranch otherwise) context sub reached

variable {ancestry : Ancestry} {parameter : String} {context reached : Context}
  {expression sub : Expression}

/-! ## Sub-expressions -/

theorem mem_walk_self (expression : Expression) : expression ∈ expression.walk := by
  cases expression <;> simp [Expression.walk]

theorem mem_walk_format {template : String} {arguments : List (Argument Expression)}
    {a : Argument Expression} (ha : a ∈ arguments) (hsub : sub ∈ a.value.walk) :
    sub ∈ (Expression.format template arguments).walk := by
  rw [Expression.walk]
  exact List.mem_append_left _ (Lint.mem_walkArguments.mpr ⟨a, ha, hsub⟩)

/-- What is reached is a sub-expression. -/
theorem Reaches.mem_walk (h : Reaches ancestry parameter expression context sub reached) :
    sub ∈ expression.walk := by
  induction h with
  | here => exact mem_walk_self _
  | argument _ _ ih => exact mem_walk_format (by simp) ih
  | captured _ ih =>
    rw [Expression.walk]
    exact List.mem_append_left _ ih
  | condition _ ih => simp [Expression.walk, ih]
  | @branch _ _ _ _ test _ _ _ _ _ ih =>
    -- Both branches belong to the walk, whichever is taken.
    split at ih <;> simp [Expression.walk, ih]

/-! ## Mismatches -/

/-- A sub-expression whose own step fails with a mismatch: the value of a capture is not of its
type, or the slot of a read is of another. -/
inductive Mismatches (ancestry : Ancestry) (parameter key : String) (expected : TypeTag)
    (found : String) : Expression → Context → Prop where
  | capture {value : Expression} {written : Json} {context after : Context} :
      eval ancestry parameter value context = .ok (written, after) →
      Slot.ofJson? expected written = none → found = written.typeName →
      Mismatches ancestry parameter key expected found (.capture key value expected) context
  | get {context : Context} :
      readSlot key expected context = .error (.typeMismatch key expected found) →
      Mismatches ancestry parameter key expected found (.get key expected) context

theorem follow_ne_typeMismatch {base : String} {passed path : List String} {value : Json}
    {key : String} {expected : TypeTag} {found : String} :
    follow parameter base passed value path ≠ .error (.typeMismatch key expected found) := by
  intro h
  induction path generalizing passed value with
  | nil => cases h
  | cons field path ih =>
    rw [follow] at h
    split at h
    · exact ih h
    · cases h

theorem render_ne_typeMismatch {template : String} {values : List (Argument Json)}
    {key : String} {expected : TypeTag} {found : String} :
    render template values ≠ .error (.typeMismatch key expected found) := by
  intro h
  unfold render at h
  split at h
  · cases h
  · split at h <;> cases h

theorem mismatches_of_readSlot {key other : String} {tag expected : TypeTag} {found : String}
    (h : readSlot key tag context = .error (.typeMismatch other expected found)) :
    Mismatches ancestry parameter other expected found (.get key tag) context := by
  have hread := h
  unfold readSlot at h
  split at h
  · cases h
  · cases h
  · cases h
    exact .get hread

/-- An evaluation that fails with a mismatch reaches a capture or a read that fails so. -/
theorem exists_reaches_of_typeMismatch {key : String} {expected : TypeTag} {found : String}
    (h : eval ancestry parameter expression context = .error (.typeMismatch key expected found)) :
    ∃ sub reached, Reaches ancestry parameter expression context sub reached ∧
      Mismatches ancestry parameter key expected found sub reached := by
  induction expression generalizing context with
  | field base path =>
    rcases bind_eq_error_iff.mp h with h | ⟨_, -, h⟩
    · unfold fieldOf at h
      split at h
      · exact absurd h follow_ne_typeMismatch
      · cases h
    · cases h
  | literal value => cases h
  | format template arguments ih =>
    rcases bind_eq_error_iff.mp h with h | ⟨⟨values, after⟩, -, h⟩
    · -- One of the arguments fails, where those before it have left the context.
      obtain ⟨before, a, after, values, middle, rfl, hbefore, ha⟩ :=
        exists_split_of_evalArguments_eq_error h
      obtain ⟨sub, reached, hreaches, hfails⟩ := ih a (by simp) ha
      exact ⟨sub, reached, .argument hbefore hreaches, hfails⟩
    · rcases bind_eq_error_iff.mp h with h | ⟨_, -, h⟩
      · exact absurd h render_ne_typeMismatch
      · cases h
  | capture k value tag ih =>
    rcases bind_eq_error_iff.mp h with h | ⟨⟨written, after⟩, hvalue, h⟩
    · obtain ⟨sub, reached, hreaches, hfails⟩ := ih h
      exact ⟨sub, reached, .captured hreaches, hfails⟩
    · rcases bind_eq_error_iff.mp h with h | ⟨_, -, h⟩
      · -- The value is there, so it is the capture itself that fails.
        unfold captureSlot at h
        split at h
        · cases h
        · next hnone =>
          cases h
          exact ⟨_, context, .here, .capture hvalue hnone rfl⟩
      · cases h
  | get k tag =>
    rcases bind_eq_error_iff.mp h with h | ⟨_, -, h⟩
    · exact ⟨_, context, .here, mismatches_of_readSlot h⟩
    · cases h
  | conditional condition thenBranch otherwise ihc iht iho =>
    rcases bind_eq_error_iff.mp h with h | ⟨⟨test, middle⟩, hcondition, h⟩
    · obtain ⟨sub, reached, hreaches, hfails⟩ := ihc h
      exact ⟨sub, reached, .condition hreaches, hfails⟩
    · dsimp only at h
      split at h
      · next htest =>
        obtain ⟨sub, reached, hreaches, hfails⟩ := iht h
        exact ⟨sub, reached, .branch hcondition (by rwa [if_pos htest]), hfails⟩
      · next htest =>
        obtain ⟨sub, reached, hreaches, hfails⟩ := iho h
        exact ⟨sub, reached, .branch hcondition (by rwa [if_neg htest]), hfails⟩

end Cookbook.Binding
