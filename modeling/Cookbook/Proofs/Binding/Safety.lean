import Cookbook.Lint
import Cookbook.Proofs.Except
import Cookbook.Proofs.Rule.WellFormed

/-!
# Well-formed recipes do not go wrong

Binding a recipe whose rules are well formed gives its arguments, or one of the four errors that
depend on the ancestors' data and on the context. In particular no template fails to render.

## Main results

* `eval_error_kind`: how the evaluation of a well-formed expression can fail.
* `evalRules_eq_error_iff`: a pass fails exactly if one of its rules does, after those before it.
* `bind_safe`: how binding a well-formed recipe can fail.
-/

namespace Cookbook

namespace Binding

variable {ancestry : Ancestry} {parameter : String} {context : Context}

/-! ## Templates -/

/-- A template whose placeholders are filled can be rendered. -/
theorem exists_render_eq_ok {template : String} {values : List (Argument Json)}
    {pieces : List Piece} (hparse : Template.parse template = .ok pieces)
    (hfilled : Template.Filled (values.map (·.label)) 0 pieces) :
    ∃ text, render template values = .ok text := by
  obtain ⟨text, htext⟩ := (Template.exists_fill_iff values (Nat.zero_le _)).mpr hfilled
  exact ⟨String.ofList text, by simp only [render, hparse, htext]⟩

/-- Evaluation keeps the labels of arguments. -/
theorem map_label_of_evalArguments {arguments : List (Argument Expression)}
    {values : List (Argument Json)} {after : Context}
    (h : evalArguments ancestry parameter arguments context = .ok (values, after)) :
    values.map (·.label) = arguments.map (·.label) := by
  induction arguments generalizing values context with
  | nil => cases h; rfl
  | cons a arguments ih =>
    obtain ⟨⟨value, middle⟩, -, h⟩ := bind_eq_ok_iff.mp h
    obtain ⟨⟨others, last⟩, hothers, h⟩ := bind_eq_ok_iff.mp h
    cases h
    rw [List.map_cons, List.map_cons, ih hothers]

/-- The error of arguments is that of one of them, evaluated where those before it end. -/
theorem exists_split_of_evalArguments_eq_error {arguments : List (Argument Expression)}
    {error : Error} (h : evalArguments ancestry parameter arguments context = .error error) :
    ∃ before a after values middle, arguments = before ++ a :: after ∧
      evalArguments ancestry parameter before context = .ok (values, middle) ∧
      eval ancestry parameter a.value middle = .error error := by
  induction arguments generalizing context with
  | nil => cases h
  | cons first arguments ih =>
    rcases bind_eq_error_iff.mp h with h | ⟨⟨value, next⟩, hfirst, h⟩
    · exact ⟨[], first, arguments, [], context, rfl, rfl, h⟩
    · rcases bind_eq_error_iff.mp h with h | ⟨_, -, h⟩
      · obtain ⟨before, a, after, values, middle, rfl, hbefore, ha⟩ := ih h
        refine ⟨first :: before, a, after, ⟨first.label, value⟩ :: values, middle, rfl, ?_, ha⟩
        exact bind_eq_ok_iff.mpr
          ⟨(value, next), hfirst, bind_eq_ok_iff.mpr ⟨(values, middle), hbefore, rfl⟩⟩
      · cases h

/-! ## Expressions -/

/-- The errors that depend on data alone: those of a rule whose ancestors are there. -/
inductive DataError (parameter : String) : Error → Prop where
  | unboundKey {key : String} : DataError parameter (.unboundKey key)
  | typeMismatch {key : String} {expected : TypeTag} {found : String} :
      DataError parameter (.typeMismatch key expected found)
  | missingField {base : String} {path : List String} :
      DataError parameter (.missingField parameter base path)

theorem dataError_of_follow {base : String} {passed path : List String} {value : Json}
    {error : Error} (h : follow parameter base passed value path = .error error) :
    DataError parameter error := by
  induction path generalizing passed value with
  | nil => cases h
  | cons field path ih =>
    rw [follow] at h
    split at h
    · exact ih h
    · cases h
      exact .missingField

/-- The ancestors that a rule declares are there. -/
def Present (ancestry : Ancestry) (dependencies : List String) : Prop :=
  ∀ name ∈ dependencies, name ≠ contextName → ancestry.contains name = true

theorem dataError_of_fieldOf {base : String} {path : List String} {error : Error}
    (hbase : ancestry.contains base = true)
    (h : fieldOf ancestry parameter base path = .error error) : DataError parameter error := by
  obtain ⟨value, hvalue⟩ := Option.isSome_iff_exists.mp hbase
  rw [fieldOf, hvalue] at h
  exact dataError_of_follow h

theorem dataError_of_captureSlot {key : String} {tag : TypeTag} {value : Json} {error : Error}
    (h : captureSlot key tag value context = .error error) : DataError parameter error := by
  unfold captureSlot at h
  split at h
  · cases h
  · cases h
    exact .typeMismatch

theorem dataError_of_readSlot {key : String} {tag : TypeTag} {error : Error}
    (h : readSlot key tag context = .error error) : DataError parameter error := by
  unfold readSlot at h
  split at h
  · cases h
  · cases h
    exact .unboundKey
  · cases h
    exact .typeMismatch

/-- A well-formed expression whose ancestors are there fails only because of the data. -/
theorem eval_error_kind {dependencies : List String} {expression : Expression} {error : Error}
    (hwell : expression.WellFormed dependencies) (hpresent : Present ancestry dependencies)
    (h : eval ancestry parameter expression context = .error error) :
    DataError parameter error := by
  -- Writes change the context, so it is general in the induction.
  induction expression generalizing context with
  | field base path =>
    cases hwell with
    | field hbase hne =>
      rcases bind_eq_error_iff.mp h with h | ⟨_, -, h⟩
      · -- The ancestor is there, so only a field of it can be missing.
        exact dataError_of_fieldOf (hpresent base hbase hne) h
      · cases h
  | format template arguments ih =>
    cases hwell with
    | @format _ _ pieces hparse hfilled hvalues =>
      rcases bind_eq_error_iff.mp h with h | ⟨⟨values, after⟩, heval, h⟩
      · obtain ⟨before, a, after, values, middle, rfl, -, ha⟩ :=
          exists_split_of_evalArguments_eq_error h
        exact ih a (by simp) (hvalues a (by simp)) ha
      · -- The values have the labels of the arguments, so the template can be rendered.
        rw [← map_label_of_evalArguments heval] at hfilled
        obtain ⟨text, htext⟩ := exists_render_eq_ok hparse hfilled
        simp only [htext] at h
        cases h
  | literal value => cases h
  | capture key value tag ih =>
    cases hwell with
    | capture _ hvalue =>
      rcases bind_eq_error_iff.mp h with h | ⟨⟨written, after⟩, -, h⟩
      · exact ih hvalue h
      · rcases bind_eq_error_iff.mp h with h | ⟨_, -, h⟩
        · exact dataError_of_captureSlot h
        · cases h
  | get key tag =>
    rcases bind_eq_error_iff.mp h with h | ⟨_, -, h⟩
    · exact dataError_of_readSlot h
    · cases h
  | conditional condition thenBranch otherwise ihc iht iho =>
    cases hwell with
    | conditional hc ht ho =>
      rcases bind_eq_error_iff.mp h with h | ⟨⟨test, after⟩, -, h⟩
      · exact ihc hc h
      · dsimp only at h
        split at h
        · exact iht ht h
        · exact iho ho h

/-! ## Rules -/

/-- A rule lacks an ancestor that it declares. -/
def Lacks (ancestry : Ancestry) (rule : Rule) (name : String) : Prop :=
  name ∈ rule.dependencies ∧ name ≠ contextName ∧ ancestry.contains name = false

theorem lacks_of_missing? {rule : Rule} {name : String}
    (h : missing? ancestry rule = some name) : Lacks ancestry rule name := by
  have hname := List.find?_some h
  rw [Bool.and_eq_true, bne_iff_ne, Bool.not_eq_true'] at hname
  exact ⟨List.mem_of_find?_eq_some h, hname⟩

theorem present_of_missing? {rule : Rule} (h : missing? ancestry rule = none) :
    Present ancestry rule.dependencies := by
  intro name hname hne
  have hfound := List.find?_eq_none.mp h name hname
  simpa [hne] using hfound

/-- A well-formed rule fails because it lacks an ancestor that it declares, or because of the
data. -/
theorem evalRule_error_kind {rule : Rule} {error : Error} (hwell : rule.WellFormed)
    (h : evalRule ancestry rule context = .error error) :
    (∃ name, error = .missingAncestor rule.parameter name ∧ Lacks ancestry rule name) ∨
      DataError rule.parameter error := by
  unfold evalRule at h
  split at h
  · next name hmissing =>
    cases h
    exact .inl ⟨name, rfl, lacks_of_missing? hmissing⟩
  · next hmissing => exact .inr (eval_error_kind hwell (present_of_missing? hmissing) h)

/-- A pass fails exactly if one of its rules does, after those before it. -/
theorem evalRules_eq_error_iff {rules : List Rule} {binding : Binding} {error : Error} :
    evalRules ancestry rules binding = .error error ↔
      ∃ before rule after reached, rules = before ++ rule :: after ∧
        evalRules ancestry before binding = .ok reached ∧
        evalRule ancestry rule reached.context = .error error := by
  induction rules generalizing binding with
  | nil => simp [evalRules]
  | cons first rules ih =>
    rw [evalRules, bind_eq_error_iff]
    constructor
    · intro h
      rcases h with h | ⟨⟨value, context⟩, hfirst, h⟩
      · exact ⟨[], first, rules, binding, rfl, rfl, h⟩
      · -- The rest fails from where the first rule ends.
        obtain ⟨before, rule, after, reached, rfl, hbefore, hrule⟩ := ih.mp h
        refine ⟨first :: before, rule, after, reached, rfl, ?_, hrule⟩
        rw [evalRules, hfirst]
        exact hbefore
    · rintro ⟨before, rule, after, reached, hrules, hbefore, hrule⟩
      cases before with
      | nil =>
        obtain ⟨rfl, rfl⟩ := List.cons.inj hrules
        cases hbefore
        exact .inl hrule
      | cons _ before =>
        obtain ⟨rfl, rfl⟩ := List.cons.inj hrules
        obtain ⟨⟨value, context⟩, hfirst, hbefore⟩ := bind_eq_ok_iff.mp hbefore
        exact .inr ⟨(value, context), hfirst,
          ih.mpr ⟨before, rule, after, reached, rfl, hbefore, hrule⟩⟩

end Binding

/-! ## Recipes -/

open Binding

/-- Binding a recipe reaches this rule, and there it ends with this error. -/
def Recipe.FailsAt (recipe : Recipe) (ancestry : Ancestry) (seed : Context) (rule : Rule)
    (error : Error) : Prop :=
  ∃ before after reached, recipe.rules = before ++ rule :: after ∧
    evalRules ancestry before ⟨.empty, seed⟩ = .ok reached ∧
    evalRule ancestry rule reached.context = .error error

variable {recipe : Recipe} {ancestry : Ancestry} {seed : Context} {rule : Rule} {error : Error}

theorem Recipe.FailsAt.mem (h : recipe.FailsAt ancestry seed rule error) : rule ∈ recipe.rules := by
  obtain ⟨before, after, _, hrules, -⟩ := h
  rw [hrules]
  exact List.mem_append_right _ List.mem_cons_self

/-- Binding well-formed rules fails because a rule lacks an ancestor that it declares, or because of
the data. -/
theorem bind_error_kind (hwell : ∀ rule ∈ recipe.rules, rule.WellFormed)
    (h : recipe.bind ancestry seed = .error error) :
    ∃ rule, recipe.FailsAt ancestry seed rule error ∧
      ((∃ name, error = .missingAncestor rule.parameter name ∧ Lacks ancestry rule name) ∨
        DataError rule.parameter error) := by
  obtain ⟨before, rule, after, reached, hrules, hbefore, hrule⟩ := evalRules_eq_error_iff.mp h
  have hfails : recipe.FailsAt ancestry seed rule error :=
    ⟨before, after, reached, hrules, hbefore, hrule⟩
  exact ⟨rule, hfails, evalRule_error_kind (hwell rule hfails.mem) hrule⟩

/-- A dependency that is no known ancestor is reported. -/
theorem exists_report_of_unknown {registry : Registry} {known : List String} {name : String}
    (hrecipe : recipe ∈ registry.recipes) (hrule : rule ∈ recipe.rules)
    (hname : name ∈ rule.dependencies) (hne : name ≠ contextName) (hunknown : name ∉ known) :
    ∃ report ∈ registry.lint ⟨some known⟩, report.check = .unknownAncestor := by
  have hfilter : name ∈ rule.dependencies.filter
      fun name => name != contextName && !known.contains name :=
    List.mem_filter.mpr ⟨hname, by simp [hne, hunknown]⟩
  have hreport : ∃ report ∈ Lint.unknownAncestor ⟨some known⟩ registry,
      report.check = .unknownAncestor :=
    ⟨_, List.mem_flatMap.mpr ⟨recipe, hrecipe,
      List.mem_flatMap.mpr ⟨rule, hrule, List.mem_map_of_mem hfilter⟩⟩, rfl⟩
  obtain ⟨report, hmem, hcheck⟩ := hreport
  exact ⟨report, List.mem_append_left _ (List.mem_append_right _ hmem), hcheck⟩

/-- Binding a well-formed recipe never goes wrong, whatever the ancestors and the seed are. It gives
the arguments or a bind error; an ancestor that is missing is one that the failing rule declares;
and none is missing if the check of ancestors finds nothing and all known ancestors are there. -/
theorem bind_safe (recipe : Recipe) (ancestry : Ancestry) (seed : Context)
    (hwell : Lint.wellFormedReports recipe = []) :
    ((∃ binding, recipe.bind ancestry seed = .ok binding) ∨
      ∃ error, recipe.bind ancestry seed = .error error ∧ error.isBindError = true) ∧
    (∀ parameter name, recipe.bind ancestry seed = .error (.missingAncestor parameter name) →
      ∃ rule, recipe.FailsAt ancestry seed rule (.missingAncestor parameter name) ∧
        rule.parameter = parameter ∧ Lacks ancestry rule name) ∧
    ∀ (registry : Registry) (known : List String), recipe ∈ registry.recipes →
      (∀ report ∈ registry.lint ⟨some known⟩, report.check ≠ .unknownAncestor) →
      (∀ name ∈ known, ancestry.contains name = true) →
      ∀ parameter name, recipe.bind ancestry seed ≠ .error (.missingAncestor parameter name) := by
  rw [Lint.wellFormedReports_eq_nil_iff] at hwell
  -- The second part carries the third: what is missing is declared, hence known or reported.
  have hmissing (parameter name : String)
      (h : recipe.bind ancestry seed = .error (.missingAncestor parameter name)) :
      ∃ rule, recipe.FailsAt ancestry seed rule (.missingAncestor parameter name) ∧
        rule.parameter = parameter ∧ Lacks ancestry rule name := by
    obtain ⟨rule, hfails, ⟨lacked, heq, hlacks⟩ | hdata⟩ := bind_error_kind hwell h
    · cases heq
      exact ⟨rule, hfails, rfl, hlacks⟩
    · cases hdata
  refine ⟨?_, hmissing, ?_⟩
  · cases h : recipe.bind ancestry seed with
    | ok binding => exact .inl ⟨binding, rfl⟩
    | error error =>
      refine .inr ⟨error, rfl, ?_⟩
      obtain ⟨rule, -, ⟨_, rfl, -⟩ | hdata⟩ := bind_error_kind hwell h
      · rfl
      · cases hdata <;> rfl
  · intro registry known hrecipe hlint hknown parameter name h
    obtain ⟨rule, hfails, -, hname, hne, habsent⟩ := hmissing parameter name h
    by_cases hmem : name ∈ known
    · rw [hknown name hmem] at habsent
      cases habsent
    · obtain ⟨report, hreport, hcheck⟩ :=
        exists_report_of_unknown hrecipe hfails.mem hname hne hmem
      exact hlint report hreport hcheck

/-- A recipe that no compiler has made: it keeps a folder in the context and names it twice. -/
def guarded : Recipe where
  constraint := "Clean"
  entrypoint := "main"
  dialect := .shell
  preamble := ""
  body := "main \"$1\""
  rules :=
    [⟨"folder", ["query", "context"], .capture "folder" (.field "query" ["folder"]) .string⟩,
      ⟨"path", ["context"], .format "\x7b\x7d/\x7b0\x7d" [⟨none, .get "folder" .string⟩]⟩]
  requirements := []
  source := "by hand"

theorem bind_safe_guarded : Lint.wellFormedReports guarded = [] ∧
    (∃ rule, guarded.FailsAt .empty .empty rule (.missingAncestor "folder" "query") ∧
      rule.parameter = "folder" ∧ Lacks .empty rule "query") ∧
    guarded.bind (.ofList [("query", .obj [("folder", .str "in")])]) .empty ≠
      .error (.missingAncestor "folder" "query") := by
  have hwell : Lint.wellFormedReports guarded = [] := by decide
  refine ⟨hwell, (bind_safe guarded .empty .empty hwell).2.1 "folder" "query" rfl, ?_⟩
  have hknown := (bind_safe guarded (.ofList [("query", .obj [("folder", .str "in")])]) .empty
    hwell).2.2 (Registry.empty.registerRecipes [guarded]) ["query"]
  exact hknown List.mem_cons_self (by decide) (by decide) "folder" "query"

end Cookbook
