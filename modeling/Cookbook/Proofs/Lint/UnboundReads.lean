import Cookbook.Proofs.Binding.Accesses
import Cookbook.Proofs.Lint.Reports

/-!
# Reads of keys that were not captured

The check of reads goes over the sub-expressions of a recipe once, in the order in which binding
meets them, and does not know which branches are taken. So it is compared with passes place by
place: a read outside branches that it reports fails in every pass, and if captures stand outside
branches only, its silence means that no pass fails for want of a key.

## Main definitions

* `Expression.sites`, `Recipe.sites`: sub-expressions, with whether they stand in a branch.
* `unboundSites`: the reads at which the check has not seen a capture of the key.

## Main results

* `passes_of_eval`: after an evaluation, each unbound read stands in a branch.
* `finds_eval`: without unbound reads an evaluation finds every key.
* `unboundReads_exact`: what the reports of the check mean for a registry of one recipe.
-/

namespace Cookbook

/-! ## Sites -/

/-- A place in an expression: what stands there, and whether it is in a branch of a conditional. -/
structure Site where
  expression : Expression
  inBranch : Bool

namespace Expression

mutual

/-- The sub-expressions as sites, in the order of `walk`; `inBranch` tells whether the expression
itself stands in a branch. -/
def sites (inBranch : Bool) : Expression → List Site
  | field base path => [⟨field base path, inBranch⟩]
  | literal value => [⟨literal value, inBranch⟩]
  | get key tag => [⟨get key tag, inBranch⟩]
  | format template arguments =>
    sitesOfArguments inBranch arguments ++ [⟨format template arguments, inBranch⟩]
  | capture key value tag => sites inBranch value ++ [⟨capture key value tag, inBranch⟩]
  | conditional condition thenBranch otherwise =>
    sites inBranch condition ++ sites true thenBranch ++ sites true otherwise ++
      [⟨conditional condition thenBranch otherwise, inBranch⟩]

/-- The sites of arguments, one argument after the other. -/
def sitesOfArguments (inBranch : Bool) : List (Argument Expression) → List Site
  | [] => []
  | ⟨_, value⟩ :: arguments => sites inBranch value ++ sitesOfArguments inBranch arguments

end

theorem map_sitesOfArguments {inBranch : Bool} {arguments : List (Argument Expression)}
    (ih : ∀ a ∈ arguments, (a.value.sites inBranch).map (·.expression) = a.value.walk) :
    (sitesOfArguments inBranch arguments).map (·.expression) = walkArguments arguments := by
  induction arguments with
  | nil => rfl
  | cons a arguments iha =>
    rw [List.forall_mem_cons] at ih
    rw [sitesOfArguments, walkArguments, List.map_append, ih.1, iha ih.2]

/-- What stands at the sites are the sub-expressions. -/
theorem map_sites (expression : Expression) (inBranch : Bool) :
    (expression.sites inBranch).map (·.expression) = expression.walk := by
  induction expression generalizing inBranch with
  | field | literal | get => rfl
  | format template arguments ih =>
    rw [sites, walk, List.map_append, map_sitesOfArguments fun a ha => ih a ha inBranch]
    rfl
  | capture key value tag ih =>
    rw [sites, walk, List.map_append, ih]
    rfl
  | conditional condition thenBranch otherwise ihc iht iho =>
    simp only [sites, walk, List.map_append, ihc, iht, iho]
    rfl

theorem mem_sitesOfArguments {inBranch : Bool} {arguments : List (Argument Expression)}
    {site : Site} :
    site ∈ sitesOfArguments inBranch arguments ↔
      ∃ a ∈ arguments, site ∈ a.value.sites inBranch := by
  induction arguments with
  | nil => simp [sitesOfArguments]
  | cons a arguments ih => simp [sitesOfArguments, ih]

/-- All sites of an expression that stands in a branch do so. -/
theorem inBranch_of_mem_sites {expression : Expression} {site : Site}
    (h : site ∈ expression.sites true) : site.inBranch = true := by
  induction expression with
  | field | literal | get =>
    obtain rfl := List.mem_singleton.mp h
    rfl
  | format template arguments ih =>
    rcases List.mem_append.mp h with h | h
    · obtain ⟨a, ha, h⟩ := mem_sitesOfArguments.mp h
      exact ih a ha h
    · obtain rfl := List.mem_singleton.mp h
      rfl
  | capture key value tag ih =>
    rcases List.mem_append.mp h with h | h
    · exact ih h
    · obtain rfl := List.mem_singleton.mp h
      rfl
  | conditional condition thenBranch otherwise ihc iht iho =>
    simp only [sites, List.mem_append, List.mem_singleton] at h
    rcases h with ((h | h) | h) | rfl
    · exact ihc h
    · exact iht h
    · exact iho h
    · rfl

end Expression

/-- The sites of rules, none of which stands in a branch itself. -/
def sitesOfRules (rules : List Rule) : List Site :=
  rules.flatMap fun rule => rule.expression.sites false

/-- The sites of a recipe, in the order in which binding meets them. -/
def Recipe.sites (recipe : Recipe) : List Site := sitesOfRules recipe.rules

theorem Recipe.map_sites (recipe : Recipe) :
    recipe.sites.map (·.expression) = recipe.expressions := by
  simp only [Recipe.sites, sitesOfRules, Recipe.expressions, List.map_flatMap,
    Expression.map_sites]

namespace Lint

/-! ## Captured keys and unbound reads -/

/-- The key that is captured at a site. -/
def captured? (site : Site) : Option String :=
  match site.expression with
  | .capture key _ _ => some key
  | _ => none

/-- The keys captured so far, after some sites. -/
def seenAfter (seen : List String) (sites : List Site) : List String :=
  (sites.filterMap captured?).reverse ++ seen

/-- The reads at which the key has not been captured; `seen` lists the keys captured so far. -/
def unboundSites (seen : List String) : List Site → List Site
  | [] => []
  | site :: sites =>
    match site.expression with
    | .capture key _ _ => unboundSites (key :: seen) sites
    | .get key _ =>
      if key ∈ seen then unboundSites seen sites else site :: unboundSites seen sites
    | _ => unboundSites seen sites

variable {seen : List String} {sites before after : List Site} {site : Site} {key : String}

theorem seenAfter_append :
    seenAfter seen (before ++ after) = seenAfter (seenAfter seen before) after := by
  simp [seenAfter]

theorem unboundSites_append :
    unboundSites seen (before ++ after) =
      unboundSites seen before ++ unboundSites (seenAfter seen before) after := by
  induction before generalizing seen with
  | nil => rfl
  | cons site before ih =>
    obtain ⟨expression, inBranch⟩ := site
    rw [List.cons_append]
    cases expression with
    | capture key value tag =>
      simp [unboundSites, ih, seenAfter, captured?]
    | get key tag =>
      by_cases hkey : key ∈ seen <;>
        simp [unboundSites, hkey, ih, seenAfter, captured?, List.filterMap_cons]
    | field | format | literal | conditional =>
      simp [unboundSites, ih, seenAfter, captured?, List.filterMap_cons]

/-- An unbound read is one whose key is not captured at any site before it. -/
theorem mem_unboundSites_iff :
    site ∈ unboundSites seen sites ↔
      ∃ before key tag after, sites = before ++ site :: after ∧
        site.expression = .get key tag ∧ key ∉ seenAfter seen before := by
  constructor
  · intro h
    induction sites generalizing seen with
    | nil => cases h
    | cons first sites ih =>
      -- The first site is the read itself, or else one before it.
      have hsplit : unboundSites seen (first :: sites) =
          unboundSites seen [first] ++ unboundSites (seenAfter seen [first]) sites :=
        @unboundSites_append seen [first] sites
      rw [hsplit, List.mem_append] at h
      rcases h with h | h
      · rw [unboundSites] at h
        split at h
        · cases h
        · next key tag hget =>
          split at h
          · cases h
          · next hkey =>
            obtain rfl := List.mem_singleton.mp h
            exact ⟨[], key, tag, sites, rfl, hget, hkey⟩
        · cases h
      · obtain ⟨before, key, tag, after, rfl, hget, hkey⟩ := ih h
        refine ⟨first :: before, key, tag, after, rfl, hget, ?_⟩
        rwa [← List.singleton_append, seenAfter_append]
  · rintro ⟨before, key, tag, after, rfl, hget, hkey⟩
    rw [unboundSites_append, unboundSites, hget]
    simp [hkey]

theorem subset_seenAfter (seen : List String) (sites : List Site) :
    seen ⊆ seenAfter seen sites :=
  List.subset_append_right _ _

/-! ## Passes that succeed -/

/-- All keys of a context have been seen. -/
def Within (seen : List String) (context : Context) : Prop :=
  ∀ key, context.contains key = true → key ∈ seen

theorem within_empty : Within [] .empty := by
  intro key hkey
  cases hkey

/-- What holds after sites have been passed with success: every key of the context has been seen,
and the reads without a capture stand in branches, which need not have been taken. -/
structure Passes (seen : List String) (sites : List Site) (left : Context) : Prop where
  within : Within (seenAfter seen sites) left
  inBranch : ∀ site ∈ unboundSites seen sites, site.inBranch = true

variable {context middle left : Context}

theorem Passes.append (hbefore : Passes seen before middle)
    (hafter : Passes (seenAfter seen before) after left) :
    Passes seen (before ++ after) left where
  within := seenAfter_append ▸ hafter.within
  inBranch := by
    rw [unboundSites_append, List.forall_mem_append]
    exact ⟨hbefore.inBranch, hafter.inBranch⟩

/-- A branch can be passed without being taken. -/
theorem Passes.skip (hwithin : Within seen left) (hbranch : ∀ site ∈ sites, site.inBranch = true) :
    Passes seen sites left where
  within key hkey := subset_seenAfter _ _ (hwithin key hkey)
  inBranch site hsite := by
    obtain ⟨before, _, _, after, rfl, -⟩ := mem_unboundSites_iff.mp hsite
    exact hbranch site (by simp)

/-- Sites without unbound reads may be passed without a change. -/
theorem Passes.quiet (hunbound : unboundSites seen sites = []) (hwithin : Within seen left) :
    Passes seen sites left where
  within key hkey := subset_seenAfter _ _ (hwithin key hkey)
  inBranch := by
    rw [hunbound]
    exact fun _ hsite => absurd hsite List.not_mem_nil

open Binding

variable {ancestry : Ancestry} {parameter : String} {inBranch : Bool}

theorem passes_capture {value : Expression} {tag : TypeTag} {written : Json}
    (hwithin : Within seen context) (h : captureSlot key tag written context = .ok left) :
    Passes seen [⟨.capture key value tag, inBranch⟩] left where
  within other hother := by
    unfold captureSlot at h
    split at h
    · cases h
      rcases (context.contains_insert_iff _).mp hother with rfl | hother
      · exact List.mem_cons_self
      · exact List.mem_cons_of_mem _ (hwithin other hother)
    · cases h
  inBranch _ hsite := absurd hsite List.not_mem_nil

/-- A read that finds its key is not one of those without a capture. -/
theorem passes_get {tag : TypeTag} {slot : Slot} (hwithin : Within seen context)
    (h : readSlot key tag context = .ok slot) :
    Passes seen [⟨.get key tag, inBranch⟩] context := by
  have hkey : key ∈ seen := by
    refine hwithin key ?_
    rw [OrderedMap.contains, (get?_of_readSlot h).1]
    rfl
  refine .quiet ?_ hwithin
  simp [unboundSites, hkey]

theorem passes_of_evalArguments {arguments : List (Argument Expression)}
    {values : List (Argument Json)}
    (ih : ∀ a ∈ arguments, ∀ seen context value left, Within seen context →
      eval ancestry parameter a.value context = .ok (value, left) →
      Passes seen (a.value.sites inBranch) left)
    (hwithin : Within seen context)
    (h : evalArguments ancestry parameter arguments context = .ok (values, left)) :
    Passes seen (Expression.sitesOfArguments inBranch arguments) left := by
  induction arguments generalizing seen context values with
  | nil =>
    cases h
    exact .quiet rfl hwithin
  | cons a arguments iha =>
    rw [List.forall_mem_cons] at ih
    obtain ⟨⟨value, middle⟩, hvalue, hrest⟩ := bind_eq_ok_iff.mp h
    obtain ⟨⟨others, last⟩, hothers, hend⟩ := bind_eq_ok_iff.mp hrest
    cases hend
    -- The keys that the first argument captures are seen by the others.
    have hfirst := ih.1 _ _ _ _ hwithin hvalue
    exact hfirst.append (iha ih.2 hfirst.within hothers)

/-- After an evaluation with success, each read without a capture stands in a branch. -/
theorem passes_of_eval {expression : Expression} {value : Json} (hwithin : Within seen context)
    (h : eval ancestry parameter expression context = .ok (value, left)) :
    Passes seen (expression.sites inBranch) left := by
  -- The parts of an expression are evaluated in the order of its sites, so what has been seen grows
  -- with the context. Parts in branches have another flag.
  induction expression generalizing seen context value left inBranch with
  | field base path =>
    obtain ⟨_, -, hend⟩ := bind_eq_ok_iff.mp h
    cases hend
    exact .quiet rfl hwithin
  | literal _ =>
    cases h
    exact .quiet rfl hwithin
  | format template arguments ih =>
    obtain ⟨⟨values, middle⟩, harguments, hrest⟩ := bind_eq_ok_iff.mp h
    obtain ⟨text, -, hend⟩ := bind_eq_ok_iff.mp hrest
    cases hend
    have hvalues : Passes seen (Expression.sitesOfArguments inBranch arguments) left :=
      passes_of_evalArguments (fun a ha _ _ _ _ => ih a ha) hwithin harguments
    exact hvalues.append (.quiet rfl hvalues.within)
  | capture key source tag ih =>
    obtain ⟨⟨written, middle⟩, hsource, hrest⟩ := bind_eq_ok_iff.mp h
    obtain ⟨last, hcapture, hend⟩ := bind_eq_ok_iff.mp hrest
    cases hend
    have hwritten : Passes seen (source.sites inBranch) middle := ih hwithin hsource
    exact hwritten.append (passes_capture hwritten.within hcapture)
  | get key tag =>
    obtain ⟨slot, hread, hend⟩ := bind_eq_ok_iff.mp h
    cases hend
    exact passes_get hwithin hread
  | conditional condition thenBranch otherwise ihc iht iho =>
    obtain ⟨⟨test, middle⟩, hcondition, hbranch⟩ := bind_eq_ok_iff.mp h
    have htest : Passes seen (condition.sites inBranch) middle := ihc hwithin hcondition
    have hskip {seen : List String} {context : Context} (branch : Expression)
        (hwithin : Within seen context) : Passes seen (branch.sites true) context :=
      .skip hwithin fun _ => Expression.inBranch_of_mem_sites
    -- One branch is taken, and the other one skipped in the context before or after it.
    have hbranches : Passes (seenAfter seen (condition.sites inBranch))
        (thenBranch.sites true ++ otherwise.sites true) left := by
      dsimp only at hbranch
      split at hbranch
      · have hthen : Passes _ (thenBranch.sites true) left := iht htest.within hbranch
        exact hthen.append (hskip otherwise hthen.within)
      · have hthen := hskip thenBranch htest.within
        exact hthen.append (iho hthen.within hbranch)
    have hall := htest.append hbranches
    rw [← List.append_assoc] at hall
    exact hall.append (.quiet rfl hall.within)

/-- After a pass with success, each read without a capture stands in a branch. -/
theorem passes_of_evalRules {rules : List Rule} {start binding : Binding}
    (hwithin : Within seen start.context) (h : evalRules ancestry rules start = .ok binding) :
    Passes seen (sitesOfRules rules) binding.context := by
  induction rules generalizing seen start with
  | nil =>
    cases h
    exact .quiet rfl hwithin
  | cons rule rules ih =>
    obtain ⟨⟨value, middle⟩, hrule, hrest⟩ := bind_eq_ok_iff.mp h
    unfold evalRule at hrule
    split at hrule
    · cases hrule
    · have hfirst : Passes seen (rule.expression.sites false) middle := passes_of_eval hwithin hrule
      exact hfirst.append (ih hfirst.within hrest)

/-! ## Passes without unbound reads -/

/-- No key is captured in a branch. -/
def StraightCaptures (sites : List Site) : Prop :=
  ∀ site ∈ sites, site.inBranch = true → captured? site = none

/-- Every key that has been seen has a slot. -/
def Covers (seen : List String) (context : Context) : Prop :=
  ∀ key ∈ seen, context.contains key = true

theorem covers_nil : Covers [] context :=
  fun _ hkey => absurd hkey List.not_mem_nil

theorem Covers.capture (hcovers : Covers seen context) (key : String) (slot : Slot) :
    Covers (key :: seen) (context.capture key slot) := by
  intro other hother
  rw [Context.capture, OrderedMap.contains_insert_iff]
  exact (List.mem_cons.mp hother).imp id (hcovers other)

/-- Branches without captures add no key. -/
theorem seenAfter_eq_self (hstraight : StraightCaptures sites)
    (hbranch : ∀ site ∈ sites, site.inBranch = true) : seenAfter seen sites = seen := by
  have hnone : sites.filterMap captured? = [] :=
    List.filterMap_eq_nil_iff.mpr fun site hsite => hstraight site hsite (hbranch site hsite)
  rw [seenAfter, hnone]
  rfl

/-- A computation does not fail for want of a key, and if it succeeds its result is as described. -/
structure Finds {α : Type} (described : α → Prop) (outcome : Except Error α) : Prop where
  found : ∀ key, outcome ≠ .error (.unboundKey key)
  result : ∀ a, outcome = .ok a → described a

section Finds

variable {α β : Type} {described : α → Prop} {result : β → Prop}

theorem Finds.ok {a : α} (h : described a) : Finds described (.ok a) where
  found _ := by simp
  result _ heq := Except.ok.inj heq ▸ h

theorem Finds.error {error : Error} (h : ∀ key, error ≠ .unboundKey key) :
    Finds described (.error error) where
  found key heq := h key (Except.error.inj heq)
  result _ := by simp

theorem Finds.bind {x : Except Error α} {f : α → Except Error β} (h : Finds described x)
    (hrest : ∀ a, described a → Finds result (f a)) : Finds result (x >>= f) := by
  cases x with
  | ok a => exact hrest a (h.result a rfl)
  | error error => exact .error fun key heq => h.found key (heq ▸ rfl)

end Finds

theorem finds_follow {base : String} {passed path : List String} {value : Json} :
    Finds (fun _ => True) (follow parameter base passed value path) := by
  induction path generalizing passed value with
  | nil => exact .ok trivial
  | cons field path ih =>
    rw [follow]
    split
    · exact ih
    · exact .error (by simp)

theorem finds_fieldOf (base : String) (path : List String) :
    Finds (fun _ => True) (fieldOf ancestry parameter base path) := by
  unfold fieldOf
  split
  · exact finds_follow
  · exact .error (by simp)

theorem finds_render (template : String) (values : List (Argument Json)) :
    Finds (fun _ => True) (render template values) := by
  unfold render
  split
  · exact .error (by simp)
  · split
    · exact .ok trivial
    · exact .error (by simp)

theorem finds_captureSlot {tag : TypeTag} {value : Json} (hcovers : Covers seen context) :
    Finds (Covers (key :: seen)) (captureSlot key tag value context) := by
  unfold captureSlot
  split
  · exact .ok (hcovers.capture key _)
  · exact .error (by simp)

/-- A key that has a slot is found, perhaps at another type. -/
theorem finds_readSlot {tag : TypeTag} (hkey : context.contains key = true) :
    Finds (fun _ => True) (readSlot key tag context) := by
  obtain ⟨slot, hslot⟩ := Option.isSome_iff_exists.mp hkey
  by_cases htag : slot.tag = tag
  · simp only [readSlot, Context.get, Context.getOptional, hslot, htag, if_true]
    exact .ok trivial
  · simp only [readSlot, Context.get, Context.getOptional, hslot, htag, if_false]
    exact .error (by simp)

theorem finds_evalArguments {arguments : List (Argument Expression)}
    (ih : ∀ a ∈ arguments, ∀ seen context, StraightCaptures (a.value.sites inBranch) →
      unboundSites seen (a.value.sites inBranch) = [] → Covers seen context →
      Finds (fun (_, left) => Covers (seenAfter seen (a.value.sites inBranch)) left)
        (eval ancestry parameter a.value context))
    (hstraight : StraightCaptures (Expression.sitesOfArguments inBranch arguments))
    (hbound : unboundSites seen (Expression.sitesOfArguments inBranch arguments) = [])
    (hcovers : Covers seen context) :
    Finds (fun (_, left) =>
        Covers (seenAfter seen (Expression.sitesOfArguments inBranch arguments)) left)
      (evalArguments ancestry parameter arguments context) := by
  -- What the sites of the first argument capture is seen by those behind it, and is in the context
  -- that it leaves.
  induction arguments generalizing seen context with
  | nil => exact .ok hcovers
  | cons a arguments iha =>
    rw [List.forall_mem_cons] at ih
    rw [Expression.sitesOfArguments, StraightCaptures, List.forall_mem_append] at hstraight
    rw [Expression.sitesOfArguments, unboundSites_append, List.append_eq_nil_iff] at hbound
    refine (ih.1 seen context hstraight.1 hbound.1 hcovers).bind ?_
    rintro ⟨value, middle⟩ hmiddle
    refine (iha ih.2 hstraight.2 hbound.2 hmiddle).bind ?_
    rintro ⟨others, left⟩ hleft
    rw [Expression.sitesOfArguments, seenAfter_append]
    exact .ok hleft

/-- If captures stand outside branches and no read is unbound, an evaluation finds every key, and
leaves a slot under every key that it captures. -/
theorem finds_eval {expression : Expression}
    (hstraight : StraightCaptures (expression.sites inBranch))
    (hbound : unboundSites seen (expression.sites inBranch) = []) (hcovers : Covers seen context) :
    Finds (fun (_, left) => Covers (seenAfter seen (expression.sites inBranch)) left)
      (eval ancestry parameter expression context) := by
  -- Both conditions on the sites split along the parts, and each part ends in a context that covers
  -- what has been seen so far.
  induction expression generalizing seen context inBranch with
  | field base path =>
    refine (finds_fieldOf base path).bind fun value _ => ?_
    exact .ok hcovers
  | literal value => exact .ok hcovers
  | format template arguments ih =>
    rw [Expression.sites, StraightCaptures, List.forall_mem_append] at hstraight
    rw [Expression.sites, unboundSites_append, List.append_eq_nil_iff] at hbound
    rw [Expression.sites, seenAfter_append]
    refine (finds_evalArguments (fun a ha _ _ => ih a ha) hstraight.1 hbound.1 hcovers).bind ?_
    rintro ⟨values, left⟩ hleft
    refine (finds_render template values).bind fun text _ => ?_
    exact .ok hleft
  | capture key source tag ih =>
    rw [Expression.sites, StraightCaptures, List.forall_mem_append] at hstraight
    rw [Expression.sites, unboundSites_append, List.append_eq_nil_iff] at hbound
    rw [Expression.sites, seenAfter_append]
    refine (ih hstraight.1 hbound.1 hcovers).bind ?_
    rintro ⟨written, middle⟩ hmiddle
    refine (finds_captureSlot hmiddle).bind fun left hleft => ?_
    exact .ok hleft
  | get key tag =>
    -- The read is not unbound, so its key has been seen.
    have hkey : key ∈ seen := by
      by_contra hnot
      simp [Expression.sites, unboundSites, hnot] at hbound
    refine (finds_readSlot (hcovers key hkey)).bind fun slot _ => ?_
    exact .ok hcovers
  | conditional condition thenBranch otherwise ihc iht iho =>
    simp only [Expression.sites, StraightCaptures, List.forall_mem_append] at hstraight
    obtain ⟨⟨⟨hcondition, hthen⟩, hotherwise⟩, -⟩ := hstraight
    -- No key is captured in the branches, so after the condition nothing more is seen.
    have hseen (branch : Expression) (h : StraightCaptures (branch.sites true))
        (seen : List String) : seenAfter seen (branch.sites true) = seen :=
      seenAfter_eq_self h fun _ => Expression.inBranch_of_mem_sites
    simp only [Expression.sites, unboundSites_append, seenAfter_append, List.append_eq_nil_iff,
      hseen _ hthen, hseen _ hotherwise] at hbound ⊢
    obtain ⟨⟨⟨hboundc, hboundt⟩, hboundo⟩, -⟩ := hbound
    refine (ihc hcondition hboundc hcovers).bind ?_
    rintro ⟨test, middle⟩ hmiddle
    dsimp only
    split
    · have h := iht hthen hboundt hmiddle
      rwa [hseen _ hthen] at h
    · have h := iho hotherwise hboundo hmiddle
      rwa [hseen _ hotherwise] at h

theorem finds_evalRules {rules : List Rule} {start : Binding}
    (hstraight : StraightCaptures (sitesOfRules rules))
    (hbound : unboundSites seen (sitesOfRules rules) = []) (hcovers : Covers seen start.context) :
    Finds (fun _ => True) (evalRules ancestry rules start) := by
  induction rules generalizing seen start with
  | nil => exact .ok trivial
  | cons rule rules ih =>
    rw [sitesOfRules, List.flatMap_cons] at hstraight hbound
    rw [StraightCaptures, List.forall_mem_append] at hstraight
    rw [unboundSites_append, List.append_eq_nil_iff] at hbound
    have hrule : Finds
        (fun (_, left) => Covers (seenAfter seen (rule.expression.sites false)) left)
        (evalRule ancestry rule start.context) := by
      unfold evalRule
      split
      · exact .error (by simp)
      · exact finds_eval hstraight.1 hbound.1 hcovers
    -- What the first rule captures covers the keys that the others read.
    refine hrule.bind ?_
    rintro ⟨value, middle⟩ hmiddle
    exact ih hstraight.2 hbound.2 hmiddle

/-! ## Reports -/

/-- A report is about a read without a capture. -/
def ReportsUnbound (recipe : Recipe) (site : Site) (report : Diagnostic) : Prop :=
  ∃ key tag, site.expression = .get key tag ∧
    report = .about recipe .getWithoutCapture .warning
      ("'" ++ recipe.constraint ++ "' from '" ++ recipe.source ++ "' reads context key '" ++
        key ++ "', which no earlier rule or other recipe captures")
      (some ("Capture '" ++ key ++ "' in an earlier argument rule"))

/-- The check finds the keys of the unbound reads. -/
theorem forall₂_unboundReads (seen : List String) (sites : List Site) :
    List.Forall₂ (fun site key => ∃ tag, site.expression = .get key tag) (unboundSites seen sites)
      (unboundReads (fun _ => false) seen (sites.map (·.expression))) := by
  induction sites generalizing seen with
  | nil => exact .nil
  | cons site sites ih =>
    obtain ⟨expression, inBranch⟩ := site
    rw [List.map_cons]
    cases expression with
    | capture key value tag => exact ih _
    | get key tag =>
      simp only [unboundSites, unboundReads, Bool.false_eq_true, or_false]
      split
      · exact ih seen
      · exact .cons ⟨tag, rfl⟩ (ih seen)
    | field | format | literal | conditional => exact ih _

variable {registry : Registry} {recipe : Recipe}

/-- A recipe on its own has no captures elsewhere. -/
theorem capturedElsewhere_eq_false (honly : registry.recipes = [recipe]) :
    capturedElsewhere registry recipe.source = fun _ => false := by
  funext key
  simp [capturedElsewhere, representatives, firstOfSource, honly]

theorem forall₂_getWithoutCapture (honly : registry.recipes = [recipe]) :
    List.Forall₂ (ReportsUnbound recipe) (unboundSites [] recipe.sites)
      (getWithoutCapture registry) := by
  -- The check goes over expressions, which are those at the sites.
  rw [getWithoutCapture, honly, List.flatMap_singleton, capturedElsewhere_eq_false honly,
    ← recipe.map_sites, List.forall₂_map_right_iff]
  refine (forall₂_unboundReads [] recipe.sites).imp ?_
  rintro site key ⟨tag, hget⟩
  exact ⟨key, tag, hget, rfl⟩

end Lint

open Lint

/-- In a registry of one recipe the check reports the unbound reads. If it reports none, and the
recipe captures outside branches only, no pass from an empty context fails for want of a key, and
if it reports a read outside branches, every pass fails. -/
theorem unboundReads_exact (registry : Registry) (recipe : Recipe) (config : Config)
    (honly : registry.recipes = [recipe]) :
    List.Forall₂ (ReportsUnbound recipe) (unboundSites [] recipe.sites)
      ((registry.lint config).filter fun report => report.check = .getWithoutCapture) ∧
    (StraightCaptures recipe.sites →
      (∀ report ∈ registry.lint config, report.check ≠ .getWithoutCapture) →
      ∀ ancestry key, recipe.arguments ancestry ≠ .error (.unboundKey key)) ∧
    ∀ site ∈ unboundSites [] recipe.sites, site.inBranch = false →
      ∀ ancestry, ∃ error, recipe.arguments ancestry = .error error := by
  have hreports : List.Forall₂ (ReportsUnbound recipe) (unboundSites [] recipe.sites)
      ((registry.lint config).filter fun report => report.check = .getWithoutCapture) := by
    rw [filter_lint]
    exact forall₂_getWithoutCapture honly
  refine ⟨hreports, ?_, ?_⟩
  · intro hstraight hsilent ancestry
    -- Without reports there is no unbound read.
    rw [filter_lint_eq_nil hsilent, List.forall₂_nil_right_iff] at hreports
    have hfinds : Finds (fun _ => True) (recipe.arguments ancestry) :=
      (finds_evalRules hstraight hreports covers_nil).bind fun _ _ => .ok trivial
    exact hfinds.found
  · intro site hsite hinBranch ancestry
    cases hend : recipe.arguments ancestry with
    | error error => exact ⟨error, rfl⟩
    | ok arguments =>
      obtain ⟨binding, hbind, -⟩ := bind_eq_ok_iff.mp hend
      -- A pass with success would have to be past the read, and it cannot be.
      have hpasses : Passes [] recipe.sites binding.context :=
        passes_of_evalRules within_empty hbind
      rw [hpasses.inBranch site hsite] at hinBranch
      cases hinBranch

/-- A recipe that counts rows and then limits them by their number. -/
def counted : Recipe where
  constraint := "Limit"
  entrypoint := "main"
  dialect := .shell
  preamble := ""
  body := "head"
  rules :=
    [⟨"rows", ["table", "context"],
        .format "\x7b\x7d of \x7b\x7d"
          [⟨none, .capture "rows" (.field "table" ["rows"]) .int⟩, ⟨none, .get "rows" .int⟩]⟩,
      ⟨"limit", ["context"],
        .conditional (.get "rows" .int) (.get "rows" .int) (.literal (.int 1))⟩]
  requirements := []
  source := "limit.sh"

/-- The same recipe, but it limits the rows before it counts them. -/
def uncounted : Recipe := { counted with rules := counted.rules.reverse }

theorem unboundReads_counted :
    let counts := Registry.empty.registerRecipes [counted]
    let limits := Registry.empty.registerRecipes [uncounted]
    counts.recipes = [counted] ∧ StraightCaptures counted.sites ∧
    (∀ report ∈ counts.lint ⟨none⟩, report.check ≠ .getWithoutCapture) ∧
    (∀ ancestry key, counted.arguments ancestry ≠ .error (.unboundKey key)) ∧
    (∃ arguments,
      counted.arguments (.ofList [("table", .obj [("rows", .int 3)])]) = .ok arguments) ∧
    limits.recipes = [uncounted] ∧
    (∃ report ∈ limits.lint ⟨none⟩, report.check = .getWithoutCapture) ∧
    ∀ ancestry, ∃ error, uncounted.arguments ancestry = .error error := by
  intro counts limits
  have hcounts : counts.recipes = [counted] := rfl
  have hlimits : limits.recipes = [uncounted] := rfl
  have hstraight : StraightCaptures counted.sites := by
    unfold StraightCaptures
    decide
  have hsilent : ∀ report ∈ counts.lint ⟨none⟩, report.check ≠ .getWithoutCapture := by decide
  -- The condition of the first rule is a read outside branches.
  have hread : (⟨.get "rows" .int, false⟩ : Site) ∈ unboundSites [] uncounted.sites := .head _
  exact ⟨hcounts, hstraight, hsilent,
    (unboundReads_exact counts counted ⟨none⟩ hcounts).2.1 hstraight hsilent, ⟨_, rfl⟩, hlimits,
    by decide, (unboundReads_exact limits uncounted ⟨none⟩ hlimits).2.2 _ hread rfl⟩

end Cookbook
