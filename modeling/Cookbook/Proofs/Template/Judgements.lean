import Mathlib.Tactic.TFAE
import Cookbook.Proofs.Binding.Safety
import Cookbook.Proofs.Rule.Inversion

/-!
# Three judgements on a template

Whether arguments fill the placeholders of a template is judged three times: by the compiler, which
has the terms of the arguments, by the check of a registry, which looks at their labels only, and by
rendering, which has their values. All three come to the same answer.

## Main definitions

* `Fillable`: the template is well formed, and arguments with the given labels fill it.

## Main results

* `exists_lowerFormat_iff`, `templateProblem?_eq_none_iff`, `exists_render_iff`: what each of the
  three judges is whether the template is fillable.
* `judged_alike`: the three agree on the same arguments.
-/

namespace Cookbook.Template

open Cookbook.Rule

variable {template : String} {labels : List (Option String)}

/-- A template without faults of which arguments with the given labels fill the placeholders. -/
def Fillable (template : String) (labels : List (Option String)) : Prop :=
  ∃ pieces, parse template = .ok pieces ∧ Filled labels 0 pieces

theorem fillable_iff {pieces : List Piece} (h : parse template = .ok pieces) :
    Fillable template labels ↔ Filled labels 0 pieces := by
  constructor
  · rintro ⟨others, hothers, hfilled⟩
    cases h.symm.trans hothers
    exact hfilled
  · exact fun hfilled => ⟨pieces, h, hfilled⟩

theorem not_fillable {fault : Fault} (h : parse template = .error fault) :
    ¬Fillable template labels := by
  rintro ⟨pieces, hpieces, -⟩
  cases h.symm.trans hpieces

/-! ## The compiler -/

/-- Terms of arguments with their expressions. -/
def Lowers (formals : List String) (terms : List (Argument Term))
    (arguments : List (Argument Expression)) : Prop :=
  List.Forall₂ (fun t a => t.label = a.label ∧ lower formals t.value = .ok a.value) terms arguments

variable {formals : List String} {terms : List (Argument Term)}
  {arguments : List (Argument Expression)}

theorem Lowers.mapM_eq (h : Lowers formals terms arguments) :
    ((lowerArguments formals terms).mapM fun a => do return ⟨a.label, ← a.value.expression⟩ :
      Except Construct (List (Argument Expression))) = .ok arguments := by
  rw [lowerArguments_eq_map, mapM_eq_ok_iff, List.forall₂_map_left_iff]
  refine h.imp fun t a hta => bind_eq_ok_iff.mpr ⟨a.value, hta.2, ?_⟩
  show Except.ok (Argument.mk t.label a.value) = .ok a
  rw [hta.1]

/-- Arguments that have expressions are compiled to these, if the template is fillable. -/
theorem lowerFormat_of_fillable (h : Lowers formals terms arguments)
    (hfillable : Fillable template (arguments.map (·.label))) :
    lowerFormat template (lowerArguments formals terms) = .ok (.format template arguments) := by
  obtain ⟨pieces, hparse, hfilled⟩ := hfillable
  have hneed : firstNeed (Argument.positionals arguments).length (arguments.filterMap (·.label)) 0
      pieces = none := by
    have hnone := (firstNeed_eq_none_iff (Nat.zero_le _)).mpr hfilled
    rwa [← length_positionals, List.filterMap_map] at hnone
  rw [lowerFormat, hparse]
  refine bind_eq_ok_iff.mpr ⟨arguments, h.mapM_eq, ?_⟩
  simp only [hneed]
  rfl

theorem map_label_eq {β : Type} {values : List (Argument β)}
    (h : List.Forall₂ (fun t v => t.label = v.label) terms values) :
    values.map (·.label) = terms.map (·.label) := by
  induction h with
  | nil => rfl
  | cons hlabel _ ih => rw [List.map_cons, List.map_cons, ih, hlabel]

/-- The compiler accepts a template exactly if it is fillable. -/
theorem exists_lowerFormat_iff (h : Lowers formals terms arguments) :
    (∃ expression, lowerFormat template (lowerArguments formals terms) = .ok expression) ↔
      Fillable template (arguments.map (·.label)) := by
  constructor
  · rintro ⟨expression, hexpression⟩
    obtain ⟨pieces, lowered, hparse, hlowered, hfilled, -⟩ := lowerFormat_inv hexpression
    rw [lowerArguments_eq_map, List.forall₂_map_left_iff] at hlowered
    -- The compiler judges by the labels of what it lowered, which are those that were written.
    have hlabels : lowered.map (·.label) = arguments.map (·.label) := by
      rw [map_label_eq (hlowered.imp fun _ _ hta => hta.1),
        map_label_eq (h.imp fun _ _ hta => hta.1)]
    exact ⟨pieces, hparse, hlabels ▸ hfilled⟩
  · exact fun hfillable => ⟨_, lowerFormat_of_fillable h hfillable⟩

/-! ## The check -/

/-- The check has nothing to report on a template exactly if it is fillable. -/
theorem templateProblem?_eq_none_iff :
    Lint.templateProblem? template labels = none ↔ Fillable template labels := by
  unfold Lint.templateProblem?
  cases hparse : parse template with
  | error fault => exact iff_of_false (Option.some_ne_none _) (not_fillable hparse)
  | ok pieces =>
    rw [fillable_iff hparse, ← fills_eq_true_iff]
    cases hfills : Lint.fills labels pieces <;> simp [hfills]

/-! ## Rendering -/

/-- Rendering succeeds exactly if the template is fillable. -/
theorem exists_render_iff (values : List (Argument Json)) :
    (∃ text, Binding.render template values = .ok text) ↔
      Fillable template (values.map (·.label)) := by
  constructor
  · rintro ⟨text, htext⟩
    cases hparse : parse template with
    | error fault =>
      rw [Binding.render, hparse] at htext
      cases htext
    | ok pieces =>
      rw [fillable_iff hparse, ← exists_fill_iff values (Nat.zero_le _)]
      simp only [Binding.render, hparse] at htext
      split at htext
      · next filled hfilled => exact ⟨filled, hfilled⟩
      · cases htext
  · rintro ⟨pieces, hparse, hfilled⟩
    exact Binding.exists_render_eq_ok hparse hfilled

/-! ## Agreement -/

variable {ancestry : Ancestry} {parameter : String} {context after : Context}
  {values : List (Argument Json)}

/-- On arguments that have expressions and values, the compiler, the check and rendering agree: the
template is accepted as it stands, nothing is reported, and it is rendered, with these values and
with any others under the same labels; or none of all this holds. -/
theorem judged_alike (hlowers : Lowers formals terms arguments)
    (hvalues : Binding.evalArguments ancestry parameter arguments context = .ok (values, after)) :
    [∃ expression, lowerFormat template (lowerArguments formals terms) = .ok expression,
      lowerFormat template (lowerArguments formals terms) = .ok (.format template arguments),
      Lint.templateProblem? template (arguments.map (·.label)) = none,
      ∃ text, Binding.render template values = .ok text,
      ∃ text, Binding.eval ancestry parameter (.format template arguments) context =
        .ok (.str text, after),
      ∀ others : List (Argument Json), others.map (·.label) = arguments.map (·.label) →
        ∃ text, Binding.render template others = .ok text].TFAE := by
  -- All of them depend on the labels of the arguments only, and the values have the same ones.
  have hlabels : values.map (·.label) = arguments.map (·.label) :=
    Binding.map_label_of_evalArguments hvalues
  have hrender : (∃ text, Binding.render template values = .ok text) ↔
      Fillable template (arguments.map (·.label)) := by
    rw [exists_render_iff, hlabels]
  tfae_have 1 → 2 := fun h => lowerFormat_of_fillable hlowers ((exists_lowerFormat_iff hlowers).mp h)
  tfae_have 2 → 1 := fun h => ⟨_, h⟩
  tfae_have 1 ↔ 3 := (exists_lowerFormat_iff hlowers).trans templateProblem?_eq_none_iff.symm
  tfae_have 3 ↔ 4 := templateProblem?_eq_none_iff.trans hrender.symm
  -- The arguments have values, so evaluation comes down to rendering.
  tfae_have 4 → 5 := by
    rintro ⟨text, htext⟩
    refine ⟨text, bind_eq_ok_iff.mpr ⟨(values, after), hvalues, ?_⟩⟩
    exact bind_eq_ok_iff.mpr ⟨text, htext, rfl⟩
  tfae_have 5 → 4 := by
    rintro ⟨text, htext⟩
    obtain ⟨evaluated, hevaluated, hrest⟩ := bind_eq_ok_iff.mp htext
    cases hvalues.symm.trans hevaluated
    obtain ⟨rendered, hrendered, -⟩ := bind_eq_ok_iff.mp hrest
    exact ⟨rendered, hrendered⟩
  tfae_have 4 → 6 := by
    intro h others hothers
    rw [exists_render_iff, hothers]
    exact hrender.mp h
  tfae_have 6 → 4 := fun h => h values hlabels
  tfae_finish

/-- Two positional arguments, of which one writes to the context, and two under one label. -/
def ports : List (Argument Term) :=
  [⟨none, .attribute (.name "host") "name"⟩, ⟨some "port", .int 22⟩,
    ⟨none, .call (.name "capture") [⟨none, .text "port"⟩, ⟨none, .int 80⟩]⟩, ⟨some "port", .none⟩]

/-- Indexed, named and empty placeholders in any order are accepted; a third empty one is not. -/
theorem judged_alike_ports :
    lowerFormat "\x7b1\x7d:\x7b\x7d@\x7bport\x7d\x7b\x7d"
        (lowerArguments ["host", "context"] ports) =
      .ok (.format "\x7b1\x7d:\x7b\x7d@\x7bport\x7d\x7b\x7d"
        [⟨none, .field "host" ["name"]⟩, ⟨some "port", .literal (.int 22)⟩,
          ⟨none, .capture "port" (.literal (.int 80)) .int⟩, ⟨some "port", .literal .none⟩]) ∧
    ¬∃ text, Binding.render "\x7b\x7d\x7b0\x7d\x7b\x7d\x7b\x7d"
        [⟨none, .str "here"⟩, ⟨some "port", .int 22⟩, ⟨none, .int 80⟩, ⟨some "port", .null⟩] =
      .ok text := by
  have hlowers : Lowers ["host", "context"] ports
      [⟨none, .field "host" ["name"]⟩, ⟨some "port", .literal (.int 22)⟩,
        ⟨none, .capture "port" (.literal (.int 80)) .int⟩, ⟨some "port", .literal .none⟩] :=
    .cons ⟨rfl, rfl⟩ (.cons ⟨rfl, rfl⟩ (.cons ⟨rfl, rfl⟩ (.cons ⟨rfl, rfl⟩ .nil)))
  have hvalues : Binding.evalArguments (.ofList [("host", .obj [("name", .str "here")])]) "target"
      [⟨none, .field "host" ["name"]⟩, ⟨some "port", .literal (.int 22)⟩,
        ⟨none, .capture "port" (.literal (.int 80)) .int⟩, ⟨some "port", .literal .none⟩] .empty =
      .ok ([⟨none, .str "here"⟩, ⟨some "port", .int 22⟩, ⟨none, .int 80⟩, ⟨some "port", .null⟩],
        .ofList [("port", .int 80)]) :=
    rfl
  -- The check is decided on both templates, and the other judgements follow.
  constructor
  · exact ((judged_alike hlowers hvalues).out 1 2).mpr (by decide)
  · intro hrendered
    have hclean := ((judged_alike hlowers hvalues).out 3 2).mp hrendered
    exact absurd hclean (by decide)

end Cookbook.Template
