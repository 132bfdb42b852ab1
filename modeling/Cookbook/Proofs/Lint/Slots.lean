import Cookbook.Proofs.Lint.Reports

/-!
# What the checks of slots look at

The checks that compare captures and reads collect captures from the first recipe of each artifact
only. If the recipes of one artifact capture alike, these are all captures of a registry.

## Main definitions

* `Registry.Writes`: what the recipes of a registry capture.
* `Registry.Shows`: what the first recipes of artifacts capture.

## Main results

* `mem_allCaptures_iff`: the captures that the checks collect.
* `shows_iff_writes`: when they are all captures of the registry.
-/

namespace Cookbook

/-! ## Registries -/

/-- Some recipe of the registry captures the key at the type. -/
def Registry.Writes (registry : Registry) (key : String) (tag : TypeTag) : Prop :=
  ∃ recipe ∈ registry.recipes, ∃ value, Expression.capture key value tag ∈ recipe.expressions

/-- A recipe is the first of its artifact in the registry. -/
def Registry.Leads (registry : Registry) (recipe : Recipe) : Prop :=
  ∃ before after, registry.recipes = before ++ recipe :: after ∧
    ∀ other ∈ before, other.source ≠ recipe.source

/-- The first recipe of some artifact captures the key at the type. -/
def Registry.Shows (registry : Registry) (key : String) (tag : TypeTag) : Prop :=
  ∃ recipe, registry.Leads recipe ∧ ∃ value, Expression.capture key value tag ∈ recipe.expressions

/-- Recipes that come from one artifact have the same rules. -/
def Registry.SharesRules (registry : Registry) : Prop :=
  ∀ recipe ∈ registry.recipes, ∀ other ∈ registry.recipes,
    recipe.source = other.source → recipe.rules = other.rules

/-- Recipes that come from one artifact capture the same keys at the same types. -/
def Registry.SharesCaptures (registry : Registry) : Prop :=
  ∀ recipe ∈ registry.recipes, ∀ other ∈ registry.recipes, recipe.source = other.source →
    ∀ key tag value, Expression.capture key value tag ∈ recipe.expressions →
      ∃ value, Expression.capture key value tag ∈ other.expressions

theorem Registry.SharesRules.sharesCaptures {registry : Registry} (h : registry.SharesRules) :
    registry.SharesCaptures := by
  intro recipe hrecipe other hother hsource key tag value hvalue
  rw [Recipe.expressions, h recipe hrecipe other hother hsource] at hvalue
  exact ⟨value, hvalue⟩

namespace Lint

variable {registry : Registry} {recipe : Recipe} {key : String} {tag : TypeTag}

/-! ## Captures -/

theorem mem_captures_iff :
    (key, tag) ∈ captures recipe ↔ ∃ value, .capture key value tag ∈ recipe.expressions := by
  rw [captures, List.mem_filterMap]
  constructor
  · rintro ⟨e, he, heq⟩
    cases e with
    | capture k value t =>
      simp only [Option.some.injEq, Prod.mk.injEq] at heq
      obtain ⟨rfl, rfl⟩ := heq
      exact ⟨value, he⟩
    | field | format | literal | get | conditional => cases heq
  · rintro ⟨value, hvalue⟩
    exact ⟨_, hvalue, rfl⟩

/-- What is kept of a list of recipes are the first ones of artifacts that were not met before. -/
theorem mem_firstOfSource_iff {seen : List String} {recipes : List Recipe} :
    recipe ∈ firstOfSource seen recipes ↔
      ∃ before after, recipes = before ++ recipe :: after ∧ recipe.source ∉ seen ∧
        ∀ other ∈ before, other.source ≠ recipe.source := by
  induction recipes generalizing seen with
  | nil => simp [firstOfSource]
  | cons first recipes ih =>
    rw [firstOfSource]
    -- The first recipe is kept exactly if its artifact was not met. Then it is the one that is
    -- meant, or else it stands before that and comes from another artifact.
    constructor
    · intro h
      split at h
      · next hmet =>
        obtain ⟨before, after, rfl, hnew, hbefore⟩ := ih.mp h
        refine ⟨first :: before, after, rfl, hnew, List.forall_mem_cons.mpr ⟨?_, hbefore⟩⟩
        exact fun hsame => hnew (hsame ▸ hmet)
      · next hnew =>
        rcases List.mem_cons.mp h with rfl | h
        · exact ⟨[], recipes, rfl, hnew, fun _ hother => nomatch hother⟩
        · obtain ⟨before, after, rfl, hnot, hbefore⟩ := ih.mp h
          rw [List.mem_cons, not_or] at hnot
          exact ⟨first :: before, after, rfl, hnot.2,
            List.forall_mem_cons.mpr ⟨fun hsame => hnot.1 hsame.symm, hbefore⟩⟩
    · rintro ⟨before, after, hsplit, hnew, hbefore⟩
      cases before with
      | nil =>
        obtain ⟨rfl, rfl⟩ := List.cons.inj hsplit
        rw [if_neg hnew]
        exact List.mem_cons_self
      | cons _ before =>
        obtain ⟨rfl, rfl⟩ := List.cons.inj hsplit
        rw [List.forall_mem_cons] at hbefore
        split
        · exact ih.mpr ⟨before, after, rfl, hnew, hbefore.2⟩
        · have hnot : recipe.source ∉ first.source :: seen := by
            rw [List.mem_cons, not_or]
            exact ⟨fun hsame => hbefore.1 hsame.symm, hnew⟩
          exact List.mem_cons_of_mem _ (ih.mpr ⟨before, after, rfl, hnot, hbefore.2⟩)

theorem mem_representatives_iff : recipe ∈ representatives registry ↔ registry.Leads recipe := by
  rw [representatives, mem_firstOfSource_iff, Registry.Leads]
  simp only [List.not_mem_nil, not_false_eq_true, true_and]

/-- Every artifact that was not met before has its first recipe. -/
theorem exists_mem_firstOfSource {seen : List String} {recipes : List Recipe}
    (hmem : recipe ∈ recipes) (hnew : recipe.source ∉ seen) :
    ∃ first ∈ firstOfSource seen recipes, first.source = recipe.source := by
  induction recipes generalizing seen with
  | nil => cases hmem
  | cons first recipes ih =>
    rw [firstOfSource]
    by_cases hsame : first.source = recipe.source
    · -- The artifact is new, so this recipe stands for it.
      rw [if_neg (hsame ▸ hnew)]
      exact ⟨first, List.mem_cons_self, hsame⟩
    · have hmem : recipe ∈ recipes := by
        rcases List.mem_cons.mp hmem with rfl | hmem
        · exact absurd rfl hsame
        · exact hmem
      split
      · exact ih hmem hnew
      · have hnew' : recipe.source ∉ first.source :: seen := by
          rw [List.mem_cons, not_or]
          exact ⟨fun h => hsame h.symm, hnew⟩
        obtain ⟨other, hother, hsource⟩ := ih hmem hnew'
        exact ⟨other, List.mem_cons_of_mem _ hother, hsource⟩

/-- The captures that the checks collect are those of the first recipe of each artifact. -/
theorem mem_allCaptures_iff : (key, tag) ∈ allCaptures registry ↔ registry.Shows key tag := by
  simp only [allCaptures, List.mem_flatMap, mem_representatives_iff, mem_captures_iff,
    Registry.Shows]

theorem mem_of_leads (h : registry.Leads recipe) : recipe ∈ registry.recipes := by
  obtain ⟨before, after, hsplit, -⟩ := h
  rw [hsplit]
  exact List.mem_append_right _ List.mem_cons_self

theorem writes_of_shows (h : registry.Shows key tag) : registry.Writes key tag := by
  obtain ⟨recipe, hleads, hcapture⟩ := h
  exact ⟨recipe, mem_of_leads hleads, hcapture⟩

/-- If recipes of one artifact capture alike, no capture is overlooked. -/
theorem shows_iff_writes (hshares : registry.SharesCaptures) :
    registry.Shows key tag ↔ registry.Writes key tag := by
  refine ⟨writes_of_shows, ?_⟩
  rintro ⟨recipe, hrecipe, value, hvalue⟩
  obtain ⟨first, hfirst, hsource⟩ := exists_mem_firstOfSource hrecipe List.not_mem_nil
  have hleads : registry.Leads first := mem_representatives_iff.mp hfirst
  exact ⟨first, hleads,
    hshares recipe hrecipe first (mem_of_leads hleads) hsource.symm key tag value hvalue⟩

theorem mem_tagsOf_iff {captured : List (String × TypeTag)} :
    tag ∈ tagsOf key captured ↔ (key, tag) ∈ captured := by
  rw [tagsOf, List.mem_filterMap]
  constructor
  · rintro ⟨⟨k, t⟩, hmem, heq⟩
    dsimp only at heq
    split at heq
    · next hk =>
      obtain rfl := Option.some.inj heq
      exact hk ▸ hmem
    · cases heq
  · intro hmem
    exact ⟨(key, tag), hmem, if_pos rfl⟩

end Lint

end Cookbook
