import Cookbook.Artifact
import Cookbook.Lint
import Cookbook.Proofs.Registration.Constraints
import Cookbook.Proofs.Rule.Lowering

/-!
# Compiled recipes are sound

Whatever the text of an artifact, the recipes that it compiles to are ones that the checks of a
registry accept.

## Main results

* `compile_inv`: the stages of a compilation.
* `sound_of_compile`: what holds of the recipes of an artifact.
-/

namespace Cookbook.Artifact

open Cookbook.Text

/-- A recipe that some artifact compiles to. -/
def Compiled (recipe : Recipe) : Prop :=
  ∃ introducers artifact recipes, compile introducers artifact = .ok recipes ∧ recipe ∈ recipes

/-- What holds of the recipes of an artifact. -/
structure Sound (introducers : Introducers) (artifact : Artifact) (recipes : List Recipe) :
    Prop where
  /-- There is a recipe. -/
  ne_nil : recipes ≠ []
  /-- The recipes are for the constraints that the registration call of the artifact's header
  declares, in that order. -/
  declared : ∃ header,
    Header.find artifact.text.toList artifact.dialect introducers = .ok header ∧
      Declares header.interior (recipes.map (·.constraint))
  /-- Constraints are identifiers. -/
  isIdentifier : ∀ recipe ∈ recipes, isIdentifier recipe.constraint.toList = true
  /-- Two recipes differ in nothing but the constraint. -/
  uniform : ∀ recipe ∈ recipes, ∀ other ∈ recipes,
    other = { recipe with constraint := other.constraint }
  body_ne_empty : ∀ recipe ∈ recipes, recipe.body ≠ ""
  /-- No parameter is computed twice. -/
  nodup_parameters : ∀ recipe ∈ recipes, recipe.parameters.Nodup
  /-- Fields are those of declared ancestors, the context is declared where it is used, and every
  placeholder is filled. -/
  wellFormed : ∀ recipe ∈ recipes, ∀ rule ∈ recipe.rules, rule.WellFormed
  /-- The check of rules finds nothing in a registry of these and of other compiled recipes. -/
  ruleWellFormed : ∀ registry : Registry,
    (∀ recipe ∈ registry.recipes, recipe ∈ recipes ∨ Compiled recipe) →
      Lint.ruleWellFormed registry = []

variable {introducers : Introducers} {artifact : Artifact} {recipes : List Recipe}

/-! ## The stages -/

/-- A compilation finds the header, reads its call, finds the body and compiles the rules; there is
one recipe for each constraint. -/
theorem compile_inv (h : compile introducers artifact = .ok recipes) :
    ∃ header registration body rules,
      Header.find artifact.text.toList artifact.dialect introducers = .ok header ∧
      Registration.find header.interior = .ok registration ∧
      Body.find artifact.text.toList header artifact.dialect = .ok body ∧
      declaredRules header registration = .ok rules ∧
      recipes = registration.constraints.map
        (recipeOf introducers artifact header registration body rules) := by
  obtain ⟨header, hheader, h⟩ := bind_eq_ok_iff.mp h
  obtain ⟨registration, hregistration, h⟩ := bind_eq_ok_iff.mp h
  obtain ⟨body, hbody, h⟩ := bind_eq_ok_iff.mp h
  obtain ⟨rules, hrules, h⟩ := bind_eq_ok_iff.mp h
  refine ⟨header, registration, body, rules, hheader, ?_, hbody, hrules, (Except.ok.inj h).symm⟩
  -- A call that is not read makes the parse fail, so this one is read.
  unfold Registration.parse at hregistration
  split at hregistration
  · next hfind => exact Except.ok.inj hregistration ▸ hfind
  · cases hregistration

theorem declaredRules_sound {header : Header} {registration : Registration} {rules : List Rule}
    (h : declaredRules header registration = .ok rules) :
    (rules.map (·.parameter)).Nodup ∧ ∀ rule ∈ rules, rule.WellFormed := by
  unfold declaredRules at h
  split at h
  · exact compileRules_sound h
  · cases h
    exact ⟨List.nodup_nil, fun _ hrule => nomatch hrule⟩

/-- A body that is found is not empty. -/
theorem ne_nil_of_find {text body : List Char} {header : Header} {dialect : Dialect}
    (h : Body.find text header dialect = .ok body) : body ≠ [] := by
  -- Both ways to find a body end in the same test.
  have hchecked {found : List Char} (h : (if found.isEmpty then .error .emptyBody else .ok found) =
      (.ok body : Except Error (List Char))) : body ≠ [] := by
    split at h
    · cases h
    · next hempty =>
      cases h
      exact fun hnil => hempty (List.isEmpty_iff.mpr hnil)
  unfold Body.find at h
  dsimp only at h
  split at h
  · obtain ⟨found, -, h⟩ := bind_eq_ok_iff.mp h
    exact hchecked h
  · exact hchecked h

/-! ## Soundness -/

/-- Compiled rules are well formed. -/
theorem wellFormed_of_compile (h : compile introducers artifact = .ok recipes) :
    ∀ recipe ∈ recipes, ∀ rule ∈ recipe.rules, rule.WellFormed := by
  obtain ⟨_, _, _, _, -, -, -, hrules, rfl⟩ := compile_inv h
  exact List.forall_mem_map.mpr fun _ _ => (declaredRules_sound hrules).2

/-- The recipes of an artifact are sound, whatever its text. -/
theorem sound_of_compile (h : compile introducers artifact = .ok recipes) :
    Sound introducers artifact recipes := by
  have hwell := wellFormed_of_compile h
  obtain ⟨header, registration, body, rules, hheader, hfind, hbody, hrules, rfl⟩ := compile_inv h
  have hdeclares := declares_of_find hfind
  refine
    { ne_nil := ?_, declared := ⟨header, hheader, ?_⟩, isIdentifier := ?_, uniform := ?_
      body_ne_empty := ?_, nodup_parameters := ?_, wellFormed := hwell, ruleWellFormed := ?_ }
  · intro hnil
    exact hdeclares.ne_nil (List.map_eq_nil_iff.mp hnil)
  · have hnames : registration.constraints.map ((·.constraint) ∘
        recipeOf introducers artifact header registration body rules) = registration.constraints :=
      List.map_id _
    rwa [List.map_map, hnames]
  · exact List.forall_mem_map.mpr hdeclares.forall_isIdentifier
  · intro one hone other hother
    obtain ⟨name, -, rfl⟩ := List.mem_map.mp hone
    obtain ⟨name', -, rfl⟩ := List.mem_map.mp hother
    rfl
  · intro recipe hrecipe hempty
    obtain ⟨name, -, rfl⟩ := List.mem_map.mp hrecipe
    apply ne_nil_of_find hbody
    rw [← String.toList_ofList (l := body), ← String.toList_empty]
    exact congrArg String.toList hempty
  · exact List.forall_mem_map.mpr fun _ _ => (declaredRules_sound hrules).1
  · intro registry hregistry
    apply (Lint.ruleWellFormed_eq_nil_iff registry).mpr
    intro other hother
    -- Recipes of this artifact and of any other are well formed for the same reason.
    rcases hregistry other hother with hmem | ⟨_, _, _, hcompile, hmem⟩
    · exact hwell other hmem
    · exact wellFormed_of_compile hcompile other hmem

/-- A query for two constraints, with rules that read and write the context. -/
def sample : Artifact where
  text :=
    "/***\n@register(REG, [Clean, 'Fast'], args=\x7b\n" ++
    "  'path': lambda query, context: capture_str('dir', query.dir) + '\x7b/',\n" ++
    "  'mode': lambda context: '\x7b\x7d-\x7b0\x7d'.format(get('dir')),\n" ++
    "\x7d)\n***/\nSELECT 1"
  dialect := .query
  source := "clean.sql"

theorem sound_sample : ∃ recipes, compile .default sample = .ok recipes ∧
    recipes.map (fun recipe => (recipe.constraint, recipe.parameters)) =
      [("Clean", ["path", "mode"]), ("Fast", ["path", "mode"])] ∧
    Sound .default sample recipes := by
  have hrun : (compile .default sample).toOption.map
      (fun recipes => recipes.map fun recipe => (recipe.constraint, recipe.parameters)) =
        some [("Clean", ["path", "mode"]), ("Fast", ["path", "mode"])] := by
    decide +kernel
  cases hcompile : compile .default sample with
  | error e =>
    rw [hcompile] at hrun
    cases hrun
  | ok recipes =>
    rw [hcompile] at hrun
    exact ⟨recipes, rfl, Option.some.inj hrun, sound_of_compile hcompile⟩

end Cookbook.Artifact
