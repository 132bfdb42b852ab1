import Cookbook.Proofs.Except
import Cookbook.Registration

/-!
# What labelled arguments set

Labelled arguments are read in order, but what is set does not depend on the order in between: it is
the last argument that counts under each label, and under the labels of the requirements the last one
under any of them.

## Main definitions

* `Argument.latest?`: the value of the last argument under one of some labels.
* `Settings.latest`: the settings with what the last arguments set.

## Main results

* `Settings.read_eq_ok_iff`: when labelled arguments can be read, and what they set.
* `Argument.latest?_perm`: where the order of arguments does not matter.
-/

namespace Cookbook

open Cookbook.Text

namespace Argument

variable {α β : Type} {labels : List String} {arguments arguments' : List (Argument α)} {value : α}

/-- The value of the last argument under one of some labels. -/
def latest? (labels : List String) (arguments : List (Argument α)) : Option α :=
  arguments.reverse.findSome? fun a =>
    if a.label ∈ labels.map some then some a.value else none

theorem latest?_append (before after : List (Argument α)) :
    latest? labels (before ++ after) = (latest? labels after).or (latest? labels before) := by
  rw [latest?, List.reverse_append, List.findSome?_append, latest?, latest?]

theorem latest?_cons (a : Argument α) (arguments : List (Argument α)) :
    latest? labels (a :: arguments) = (latest? labels arguments).or (latest? labels [a]) :=
  latest?_append [a] arguments

theorem latest?_map (f : α → β) (arguments : List (Argument α)) :
    latest? labels (arguments.map (map f)) = (latest? labels arguments).map f := by
  rw [latest?, latest?, ← List.map_reverse, List.findSome?_map, List.map_findSome?]
  congr 1
  funext a
  rw [Function.comp_apply, Function.comp_apply, apply_ite (Option.map f)]
  rfl

theorem latest?_singleton (label : Option String) (value : α) :
    latest? labels [⟨label, value⟩] = if label ∈ labels.map some then some value else none := by
  rw [latest?, List.reverse_singleton, List.findSome?_cons]
  split <;> simp_all

/-- A positional argument does not count. -/
@[simp]
theorem latest?_cons_none (value : α) (arguments : List (Argument α)) :
    latest? labels (⟨none, value⟩ :: arguments) = latest? labels arguments := by
  rw [latest?_cons, latest?_singleton, if_neg (by simp), Option.or_none]

/-- Where the last argument can be read, the one before it does not show. -/
theorem bind_latest?_cons {a : Argument α} {item : α → Option β}
    (h : ∀ value, latest? labels arguments = some value → (item value).isSome = true) :
    (latest? labels (a :: arguments)).bind item =
      ((latest? labels arguments).bind item).or ((latest? labels [a]).bind item) := by
  rw [latest?_cons a arguments]
  cases hlast : latest? labels arguments with
  | none => rfl
  | some value =>
    obtain ⟨found, hfound⟩ := Option.isSome_iff_exists.mp (h value hlast)
    simp [hfound]

theorem mem_of_latest? (h : latest? labels arguments = some value) :
    ∃ label ∈ labels, ⟨some label, value⟩ ∈ arguments := by
  obtain ⟨⟨own, found⟩, hmem, hvalue⟩ := List.exists_of_findSome?_eq_some h
  split at hvalue
  · next hown =>
    obtain ⟨label, hlabel, rfl⟩ := List.mem_map.mp hown
    cases hvalue
    exact ⟨label, hlabel, List.mem_reverse.mp hmem⟩
  · cases hvalue

/-- If at most one of the labels is used, and not twice, it does not matter which argument is the
last. -/
theorem latest?_eq_some_iff (hnodup : (arguments.filterMap (·.label)).Nodup)
    (hone : ∀ label ∈ labels, ∀ other ∈ labels, label ∈ arguments.filterMap (·.label) →
      other ∈ arguments.filterMap (·.label) → label = other) :
    latest? labels arguments = some value ↔ ∃ label ∈ labels, ⟨some label, value⟩ ∈ arguments := by
  refine ⟨mem_of_latest?, ?_⟩
  rintro ⟨label, hlabel, hmem⟩
  have hused {label : String} {value : α} (h : ⟨some label, value⟩ ∈ arguments) :
      label ∈ arguments.filterMap (·.label) := List.mem_filterMap.mpr ⟨_, h, rfl⟩
  cases hlatest : latest? labels arguments with
  | none =>
    have hnone := List.findSome?_eq_none_iff.mp hlatest _ (List.mem_reverse.mpr hmem)
    rw [if_pos (List.mem_map_of_mem hlabel)] at hnone
    cases hnone
  | some last =>
    obtain ⟨other, hother, hlast⟩ := mem_of_latest? hlatest
    obtain rfl := hone label hlabel other hother (hused hmem) (hused hlast)
    rw [← labelled?_of_mem hnodup hmem, ← labelled?_of_mem hnodup hlast]

/-- Then the arguments may stand in any order. -/
theorem latest?_perm (hperm : arguments'.Perm arguments)
    (hnodup : (arguments.filterMap (·.label)).Nodup)
    (hone : ∀ label ∈ labels, ∀ other ∈ labels, label ∈ arguments.filterMap (·.label) →
      other ∈ arguments.filterMap (·.label) → label = other) :
    latest? labels arguments' = latest? labels arguments := by
  have hlabels := hperm.filterMap (·.label)
  have hone' : ∀ label ∈ labels, ∀ other ∈ labels, label ∈ arguments'.filterMap (·.label) →
      other ∈ arguments'.filterMap (·.label) → label = other := by
    simpa only [hlabels.mem_iff] using hone
  refine Option.ext fun value => ?_
  rw [latest?_eq_some_iff hnodup hone, latest?_eq_some_iff (hlabels.nodup_iff.mpr hnodup) hone']
  simp only [hperm.mem_iff]

end Argument

/-! ## Settings -/

namespace Settings

open Argument

variable {settings after : Settings} {label : String} {value : Segment} {seen : List String}
  {arguments : List (Argument Segment)}

/-- Whether an argument under a label can be read. -/
def readable (label : String) (text : List Char) : Bool :=
  match label with
  | "entrypoint" | "preamble" => (literalValue? text).isSome
  | "pip_requirements" | "requirements" => (literalList? text).isSome
  | _ => true

/-- The labels under which the requirements stand. -/
def requirementLabels : List String := ["pip_requirements", "requirements"]

/-- The text of a literal. -/
def literalText? (text : List Char) : Option String :=
  (literalValue? text).map String.ofList

/-- The settings with what the last arguments set. -/
def latest (settings : Settings) (arguments : List (Argument Segment)) : Settings where
  args := (latest? ["args"] arguments).or settings.args
  entrypoint := ((latest? ["entrypoint"] arguments).bind (literalText? ·.text)).or settings.entrypoint
  preamble := ((latest? ["preamble"] arguments).bind (literalText? ·.text)).or settings.preamble
  requirements := ((latest? requirementLabels arguments).bind (literalList? ·.text)).getD
    settings.requirements

theorem set_eq_ok_iff :
    settings.set label value = .ok after ↔
      readable label value.text = true ∧ after = settings.latest [⟨some label, value⟩] := by
  unfold set
  -- One case for each label that is known, and the last one for all others, which are read but set
  -- nothing.
  split
  · simp [readable, latest, latest?_singleton, requirementLabels, eq_comm]
  · cases h : literalValue? value.text <;>
      simp [readable, latest, latest?_singleton, requirementLabels, literalText?, h, eq_comm]
  · cases h : literalValue? value.text <;>
      simp [readable, latest, latest?_singleton, requirementLabels, literalText?, h, eq_comm]
  · cases h : literalList? value.text <;>
      simp [readable, latest, latest?_singleton, requirementLabels, h, eq_comm]
  · cases h : literalList? value.text <;>
      simp [readable, latest, latest?_singleton, requirementLabels, h, eq_comm]
  · next hargs hentrypoint hpreamble hpip hrequirements =>
    have hother : label ≠ "args" ∧ label ≠ "entrypoint" ∧ label ≠ "preamble" ∧
        label ≠ "pip_requirements" ∧ label ≠ "requirements" :=
      ⟨hargs, hentrypoint, hpreamble, hpip, hrequirements⟩
    have hsame : settings.latest [⟨some label, value⟩] = settings := by
      simp [latest, latest?_singleton, requirementLabels, hother]
    rw [hsame, Except.ok.injEq, eq_comm]
    simp [readable]

@[simp]
theorem latest_nil (settings : Settings) : settings.latest [] = settings := rfl

@[simp]
theorem latest_cons_none (settings : Settings) (value : Segment) (arguments : List (Argument Segment)) :
    settings.latest (⟨.none, value⟩ :: arguments) = settings.latest arguments := by
  simp only [latest, latest?_cons_none]

/-- What the last arguments set is set by one argument after the other. -/
theorem latest_latest {a : Argument Segment}
    (hread : ∀ a ∈ arguments, ∀ label ∈ a.label, readable label a.value.text = true) :
    (settings.latest [a]).latest arguments = settings.latest (a :: arguments) := by
  -- A label that stands again overrides only if its value can be read, and here all can.
  have hlast {γ : Type} {labels : List String} {item : Segment → Option γ}
      (hitem : ∀ label ∈ labels, ∀ value : Segment,
        readable label value.text = (item value).isSome) :
      (latest? labels (a :: arguments)).bind item =
        ((latest? labels arguments).bind item).or ((latest? labels [a]).bind item) := by
    refine bind_latest?_cons fun value hvalue => ?_
    obtain ⟨label, hlabel, hmem⟩ := mem_of_latest? hvalue
    rw [← hitem label hlabel]
    exact hread _ hmem label rfl
  have hentrypoint := @hlast _ ["entrypoint"] (literalText? ·.text)
    (by simp [readable, literalText?])
  have hpreamble := @hlast _ ["preamble"] (literalText? ·.text)
    (by simp [readable, literalText?])
  have hrequirements := @hlast _ requirementLabels (literalList? ·.text)
    (by simp [requirementLabels, readable])
  have hargs : latest? ["args"] (a :: arguments) = _ := latest?_cons a arguments
  simp only [latest, hargs, hentrypoint, hpreamble, hrequirements, Option.or_assoc, Option.getD_or]

/-- Labelled arguments can be read exactly if no label is used twice and each can be read under its
label. They set what the last ones among them set. -/
theorem read_eq_ok_iff :
    settings.read seen arguments = .ok after ↔
      (arguments.filterMap (·.label)).Nodup ∧
      (∀ label ∈ arguments.filterMap (·.label), label ∉ seen) ∧
      (∀ a ∈ arguments, ∀ label ∈ a.label, readable label a.value.text = true) ∧
      after = settings.latest arguments := by
  -- The labels that were read move to `seen`, and what they set to the settings at the start.
  induction arguments generalizing settings seen with
  | nil =>
    rw [read, latest_nil, Except.ok.injEq]
    exact ⟨fun h => ⟨List.nodup_nil, by simp, by simp, h.symm⟩, fun h => h.2.2.2.symm⟩
  | cons a arguments ih =>
    obtain ⟨label, value⟩ := a
    cases label with
    | none =>
      rw [read, ih, latest_cons_none]
      simp
    | some label =>
      rw [read]
      by_cases hseen : label ∈ seen
      · simp [hseen]
      · rw [if_neg hseen]
        cases hset : settings.set label value with
        | error what =>
          have hread : readable label value.text ≠ true := fun hread =>
            nomatch hset.symm.trans (set_eq_ok_iff.mpr ⟨hread, rfl⟩)
          simp [hread]
        | ok middle =>
          obtain ⟨hread, rfl⟩ := set_eq_ok_iff.mp hset
          have hlabels : (⟨some label, value⟩ :: arguments).filterMap (·.label) =
              label :: arguments.filterMap (·.label) := rfl
          rw [ih, hlabels, List.nodup_cons, List.forall_mem_cons]
          -- Settings that a later argument sets again do not show, which is `latest_latest`.
          constructor
          · rintro ⟨hnodup, hnew, hrest, rfl⟩
            refine ⟨⟨fun hmem => hnew label hmem List.mem_cons_self, hnodup⟩,
              ⟨hseen, fun other hother => ?_⟩, ?_, latest_latest hrest⟩
            · exact List.not_mem_of_not_mem_cons (hnew other hother)
            · exact List.forall_mem_cons.mpr ⟨by simpa using hread, hrest⟩
          · rintro ⟨⟨hmem, hnodup⟩, ⟨-, hnew⟩, hrest, rfl⟩
            have hrest := (List.forall_mem_cons.mp hrest).2
            refine ⟨hnodup, fun other hother => ?_, hrest, (latest_latest hrest).symm⟩
            have hne : other ≠ label := by
              rintro rfl
              exact hmem hother
            exact List.not_mem_cons_of_ne_of_not_mem hne (hnew other hother)

end Settings

end Cookbook
