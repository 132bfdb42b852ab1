import Cookbook.Proofs.Registration.CallSite
import Cookbook.Proofs.Registration.Settings
import Cookbook.Proofs.Registration.WholeItems

/-!
# Labelled arguments in another order

A registration call with whole values declares what its items declare, whatever gaps stand between
them. The labelled items may change places, with the positional ones in their order: all fields are
the same then, except that the requirements have two labels. If both are used, it is the later one
that counts.

## Main definitions

* `Declared`: what a registration declares, offsets aside.
* `declaredBy?`: what items declare.

## Main results

* `declared_parse`: a call declares what its items declare.
* `parse_permuted`: calls with the same items in another order.
-/

namespace Cookbook

open Cookbook.Text Argument

/-- What a registration declares, without the offsets of its parts. -/
structure Declared where
  name : String
  constraints : List String
  /-- The text of the argument map. -/
  args : Option (List Char)
  entrypoint : Option String
  preamble : Option String
  requirements : List String
  deriving DecidableEq, Repr

/-- The same with other requirements. -/
def Declared.withRequirements (declared : Declared) (requirements : List String) : Declared :=
  { declared with requirements := requirements }

theorem Declared.withRequirements_eq_self_iff {declared : Declared} {requirements : List String} :
    declared.withRequirements requirements = declared ↔ requirements = declared.requirements := by
  constructor
  · intro h
    exact congrArg Declared.requirements h
  · rintro rfl
    rfl

namespace Registration

/-- What a registration declares. -/
def declared (registration : Registration) : Declared where
  name := registration.name
  constraints := registration.constraints
  args := registration.settings.args.map (·.text)
  entrypoint := registration.settings.entrypoint
  preamble := registration.settings.preamble
  requirements := registration.settings.requirements

/-- What the first call of a header declares, if it is well formed. -/
def declared? (lineOf : Nat → Nat) (header : List Char) : Option Declared :=
  (parse lineOf header).toOption.map declared

/-- The constraints that the second positional value names. -/
def constraintsOf? : List (List Char) → Option (List String)
  | _ :: target :: _ => constraintNames? target
  | _ => none

/-- Whether every labelled item can be read under its label. -/
def allReadable (items : List (Argument (List Char))) : Bool :=
  items.all fun item => item.label.all fun label => Settings.readable label item.value

/-- The requirements that the last item with a label for them lists. -/
def requirementsOf (items : List (Argument (List Char))) : List String :=
  ((latest? Settings.requirementLabels items).bind literalList?).getD []

/-- What labelled items declare, beside the name of the call and the constraints. -/
def declaration (name : String) (items : List (Argument (List Char))) (constraints : List String) :
    Declared where
  name := name
  constraints := constraints
  args := latest? ["args"] items
  entrypoint := (latest? ["entrypoint"] items).bind Settings.literalText?
  preamble := (latest? ["preamble"] items).bind Settings.literalText?
  requirements := requirementsOf items

/-- What items declare, if all of them can be read. -/
def declaredBy? (name : String) (items : List (Argument (List Char))) : Option Declared :=
  if allReadable items then
    (constraintsOf? (positionals items)).map (declaration name items)
  else none

variable {items items' : List (Argument (List Char))} {arguments : List (Argument Segment)}
  {name : String}

/-! ## What items declare -/

theorem allReadable_iff :
    allReadable items = true ↔
      ∀ item ∈ items, ∀ label ∈ item.label, Settings.readable label item.value = true := by
  simp [allReadable, Option.all_eq_true]

/-- An empty positional item at the end declares nothing. -/
theorem constraintsOf?_concat_nil (values : List (List Char)) :
    constraintsOf? (values ++ [[]]) = constraintsOf? values := by
  match values with
  | [] => rfl
  | [_] => rfl
  | _ :: _ :: _ => rfl

theorem declaredBy?_concat_nil (name : String) (items : List (Argument (List Char))) :
    declaredBy? name (items ++ [⟨none, []⟩]) = declaredBy? name items := by
  have hpositionals : positionals (items ++ [⟨none, []⟩]) = positionals items ++ [[]] := by
    simp [positionals, isPositional]
  have hlatest (labels : List String) :
      latest? labels (items ++ [⟨none, []⟩]) = latest? labels items := by
    rw [latest?_append, latest?_cons_none]
    rfl
  have hdeclaration : declaration name (items ++ [⟨none, []⟩]) = declaration name items :=
    funext fun _ => by simp only [declaration, hlatest, requirementsOf]
  simp [declaredBy?, allReadable, hpositionals, constraintsOf?_concat_nil, hdeclaration]

theorem requirements_declaredBy? {declared : Declared} (h : declaredBy? name items = some declared) :
    declared.requirements = requirementsOf items := by
  rw [declaredBy?] at h
  split at h
  · obtain ⟨constraints, -, rfl⟩ := Option.map_eq_some_iff.mp h
    rfl
  · cases h

/-- In another order the same items declare the same, but for the requirements. -/
theorem declaredBy?_perm (hperm : items'.Perm items) (hpositionals : positionals items' = positionals items)
    (hnodup : (items.filterMap (·.label)).Nodup) :
    declaredBy? name items' =
      (declaredBy? name items).map (·.withRequirements (requirementsOf items')) := by
  have hreadable : allReadable items' = allReadable items := by
    rw [Bool.eq_iff_iff, allReadable_iff, allReadable_iff]
    simp only [hperm.mem_iff]
  have hlatest (label : String) : latest? [label] items' = latest? [label] items :=
    latest?_perm hperm hnodup (by simp)
  have hdeclaration : declaration name items' =
      (·.withRequirements (requirementsOf items')) ∘ declaration name items :=
    funext fun _ => by simp only [declaration, hlatest, Function.comp_apply, Declared.withRequirements]
  rw [declaredBy?, declaredBy?, hreadable, hpositionals, hdeclaration, ← Option.map_map]
  split <;> rfl

/-! ## What a call declares -/

theorem toOption_parse (lineOf : Nat → Nat) (header : List Char) :
    (parse lineOf header).toOption = (find header).toOption := by
  unfold parse
  cases find header <;> rfl

/-- A call declares what is read of its arguments. -/
theorem declared_find {call : Call} {header : List Char} (hcall : Call.find header = .ok call)
    (harguments : call.arguments header = .ok arguments)
    (hnodup : (arguments.filterMap (·.label)).Nodup) :
    (find header).toOption.map declared =
      declaredBy? call.name (arguments.map (Argument.map (·.text))) := by
  -- Whether all labelled arguments can be read depends on their texts only.
  have hreadable : allReadable (arguments.map (Argument.map (·.text))) = true ↔
      ∀ a ∈ arguments, ∀ label ∈ a.label, Settings.readable label a.value.text = true := by
    rw [allReadable_iff]
    simp [Argument.map]
  rw [find, hcall, declaredBy?]
  by_cases hread : ∀ a ∈ arguments, ∀ label ∈ a.label, Settings.readable label a.value.text = true
  -- Then the settings are the latest ones, and the number of positional arguments decides.
  · have hsettings : Settings.none.read [] arguments = .ok (Settings.none.latest arguments) :=
      Settings.read_eq_ok_iff.mpr ⟨hnodup, by simp, hread, rfl⟩
    rw [if_pos (hreadable.mpr hread), positionals_map]
    have hdeclared (constraints : List String) :
        declared ⟨call.name, constraints, Settings.none.latest arguments, call.start,
          call.closeAt + 1⟩ =
            declaration call.name (arguments.map (Argument.map (·.text))) constraints := by
      simp only [declared, declaration, Settings.latest, Settings.none, Option.or_none,
        requirementsOf, latest?_map, Option.bind_map, Function.comp_def]
    simp only [harguments, hsettings, bind, Except.bind]
    rcases positionals arguments with _ | ⟨_, _ | ⟨target, _⟩⟩
    · rfl
    · rfl
    · simp only [List.map_cons, constraintsOf?]
      cases constraintNames? target.text with
      | none => rfl
      | some constraints => exact congrArg some (hdeclared constraints)
  · rw [if_neg (mt hreadable.mp hread)]
    cases hsettings : Settings.none.read [] arguments with
    | ok settings => exact absurd (Settings.read_eq_ok_iff.mp hsettings).2.2.1 hread
    | error fault =>
      simp [bind, Except.bind, harguments, hsettings, Except.toOption]

/-- A call with whole values declares what its items declare, whatever the gaps between them are. -/
theorem declared_parse {site : CallSite} (lineOf : Nat → Nat) (hlaid : Laid items site.inner)
    (hitems : ∀ item ∈ items, IsItem item) (hnodup : (items.filterMap (·.label)).Nodup) :
    declared? lineOf site.header = declaredBy? (String.ofList site.name) items := by
  have hcall : Call.find site.header = .ok site.call :=
    site.find_header (hlaid.row hitems (by simp [Unquoted, isQuote]))
  -- The arguments that are split off are the items, but for an empty one behind a last comma.
  -- Offsets are not declared, so shifting them makes no difference.
  obtain ⟨found, hfound, hreads⟩ := splitArguments_laid hlaid hitems
  have harguments : site.call.arguments site.header =
      .ok (found.map (·.shifted (site.call.openAt + 1))) := by
    rw [Call.arguments, site.inner_header, hfound]
    rfl
  have htexts : (found.map (·.shifted (site.call.openAt + 1))).map (Argument.map (·.text)) =
      found.map (Argument.map (·.text)) := by
    rw [List.map_map]
    rfl
  have hlabels : (found.map (·.shifted (site.call.openAt + 1))).filterMap (·.label) =
      items.filterMap (·.label) := by
    rcases hreads with rfl | rfl <;> simp [List.filterMap_map, Function.comp_def, Argument.map, Argument.shifted]
  rw [declared?, toOption_parse, declared_find hcall harguments (hlabels ▸ hnodup), htexts]
  rcases hreads with rfl | rfl
  · rfl
  · rw [declaredBy?_concat_nil]
    rfl

/-! ## Calls with the same items -/

/-- Two calls with the same labelled items, under distinct labels and in any order, and with the same
positional items in their order, are well formed or not together. They declare the same but for the
requirements, which are those of the last item that lists any. So they declare the same exactly if
these lists are, and always if the requirements stand under one of their two labels only. -/
theorem parse_permuted (lineOf : Nat → Nat) (site : CallSite) (inner : List Char)
    (items items' : List (Argument (List Char)))
    (hlaid : Laid items site.inner) (hlaid' : Laid items' inner)
    (hitems : ∀ item ∈ items, IsItem item) (hnodup : (items.filterMap (·.label)).Nodup)
    (hperm : items'.Perm items) (hpositionals : positionals items' = positionals items) :
    declared? lineOf { site with inner := inner }.header =
        (declared? lineOf site.header).map (·.withRequirements (requirementsOf items')) ∧
      (declared? lineOf { site with inner := inner }.header = declared? lineOf site.header ↔
        declared? lineOf site.header = none ∨ requirementsOf items' = requirementsOf items) ∧
      (¬("pip_requirements" ∈ items.filterMap (·.label) ∧
          "requirements" ∈ items.filterMap (·.label)) →
        declared? lineOf { site with inner := inner }.header = declared? lineOf site.header) := by
  have hitems' : ∀ item ∈ items', IsItem item := fun item hitem =>
    hitems item (hperm.mem_iff.mp hitem)
  have hnodup' : (items'.filterMap (·.label)).Nodup :=
    (hperm.filterMap (·.label)).nodup_iff.mpr hnodup
  have hfirst : declared? lineOf site.header = declaredBy? (String.ofList site.name) items :=
    declared_parse lineOf hlaid hitems hnodup
  have hother : declared? lineOf { site with inner := inner }.header =
      declaredBy? (String.ofList site.name) items' := declared_parse lineOf hlaid' hitems' hnodup'
  have hall : declared? lineOf { site with inner := inner }.header =
      (declared? lineOf site.header).map (·.withRequirements (requirementsOf items')) := by
    rw [hother, hfirst, declaredBy?_perm hperm hpositionals hnodup]
  have hsame : declared? lineOf { site with inner := inner }.header = declared? lineOf site.header ↔
      declared? lineOf site.header = none ∨ requirementsOf items' = requirementsOf items := by
    rw [hall]
    cases hdeclared : declared? lineOf site.header with
    | none => simp
    | some declared =>
      rw [← requirements_declaredBy? (hfirst.symm.trans hdeclared)]
      simp [Declared.withRequirements_eq_self_iff]
  refine ⟨hall, hsame, fun hlabels => hsame.mpr (.inr ?_)⟩
  rw [requirementsOf, requirementsOf, latest?_perm hperm hnodup]
  -- Of the labels of the requirements only one is used.
  intro label hlabel other hother hused hused'
  rcases List.mem_pair.mp hlabel with rfl | rfl <;> rcases List.mem_pair.mp hother with rfl | rfl
  · rfl
  · exact absurd ⟨hused, hused'⟩ hlabels
  · exact absurd ⟨hused', hused⟩ hlabels
  · rfl

/-- A call with a comma in a literal and another one behind its last item. -/
def plainSite : CallSite where
  lines := []
  indent := []
  name := "register".toList
  gap := []
  inner := "REG, A, preamble=\"p,\", requirements=['b'],".toList
  after := []
  isLine := by decide
  earlier := by decide
  isIndent := fun _ h => nomatch h
  isWord := ⟨by decide, List.all_eq_true.mp (by decide)⟩
  isGap := fun _ h => nomatch h

/-- The items there. -/
def plainItems : List (Argument (List Char)) :=
  [⟨none, "REG".toList⟩, ⟨none, "A".toList⟩, ⟨some "preamble", "\"p,\"".toList⟩,
    ⟨some "requirements", "['b']".toList⟩]

/-- The same items in another order. -/
def mixedItems : List (Argument (List Char)) :=
  [⟨some "requirements", "['b']".toList⟩, ⟨none, "REG".toList⟩,
    ⟨some "preamble", "\"p,\"".toList⟩, ⟨none, "A".toList⟩]

theorem isItem_plain : ∀ item ∈ plainItems, IsItem item := by
  have hitem : ∀ item ∈ plainItems, takeValue false item.value = some (item.value, []) ∧
      '\\' ∉ item.value ∧ item.value.head?.all (startsGap · = false) = true ∧
      item.label.all (isIdentifier ·.toList) = true ∧
      (item.label = none → takeLabel item.value = (none, item.value)) := by
    decide +kernel
  intro item hmem
  obtain ⟨hwhole, hplain, hstarts, hlabelled, hunlabelled⟩ := hitem item hmem
  exact ⟨hwhole, hplain, by simpa [Option.all_eq_true] using hstarts,
    by simpa [Option.all_eq_true] using hlabelled, hunlabelled⟩

theorem laid_plain : Laid plainItems plainSite.inner := by
  have htext : plainSite.inner = ([] ++ "REG".toList ++ []) ++ ',' ::
      (([' '] ++ "A".toList ++ []) ++ ',' ::
      (([' '] ++ ("preamble".toList ++ [] ++ '=' :: []) ++ "\"p,\"".toList ++ []) ++ ',' ::
      (([' '] ++ ("requirements".toList ++ [] ++ '=' :: []) ++ "['b']".toList ++ []) ++ ',' :: []))) := by
    decide +kernel
  rw [htext]
  exact .cons (.positional .nil .nil) (.cons (.positional .blank .nil)
    (.cons (.labelled .blank .nil .nil (by decide) .nil)
    (.cons (.labelled .blank .nil .nil (by decide) .nil) (.nil .nil))))

/-- The text of the other order, with other gaps. -/
def mixedInner : List Char :=
  "requirements = ['b'] ,REG,\npreamble=\"p,\", A".toList

theorem laid_mixed : Laid mixedItems mixedInner := by
  have htext : mixedInner =
      ([] ++ ("requirements".toList ++ [' '] ++ '=' :: [' ']) ++ "['b']".toList ++ [' ']) ++ ',' ::
      (([] ++ "REG".toList ++ []) ++ ',' ::
      ((['\n'] ++ ("preamble".toList ++ [] ++ '=' :: []) ++ "\"p,\"".toList ++ []) ++ ',' ::
      ([' '] ++ "A".toList ++ []))) := by
    decide +kernel
  rw [htext]
  exact .cons (.labelled .nil .blank .blank (by decide) .blank) (.cons (.positional .nil .nil)
    (.cons (.labelled (.space rfl .nil) .nil .nil (by decide) .nil)
    (.last (.positional .blank .nil))))

theorem parse_permuted_mixed :
    Laid plainItems plainSite.inner ∧ Laid mixedItems mixedInner ∧ mixedItems.Perm plainItems ∧
      positionals mixedItems = positionals plainItems ∧
      declared? id { plainSite with inner := mixedInner }.header = declared? id plainSite.header ∧
      declared? id plainSite.header = some ⟨"register", ["A"], none, none, some "p,", ["b"]⟩ := by
  have hperm : mixedItems.Perm plainItems := by decide
  have hpositionals : positionals mixedItems = positionals plainItems := by decide
  obtain ⟨-, -, hsame⟩ := parse_permuted id plainSite mixedInner plainItems mixedItems laid_plain
    laid_mixed isItem_plain (by decide) hperm hpositionals
  exact ⟨laid_plain, laid_mixed, hperm, hpositionals, hsame (by decide), by decide +kernel⟩

/-- The requirements are those of the later list. -/
theorem overridden_requirements :
    declared? id "@register(REG, A, requirements=['b'], pip_requirements=['a'])".toList =
        some ⟨"register", ["A"], none, none, none, ["a"]⟩ ∧
      declared? id "@register(REG, A, pip_requirements=['a'], requirements=['b'])".toList =
        some ⟨"register", ["A"], none, none, none, ["b"]⟩ := by
  decide +kernel

end Registration

end Cookbook
