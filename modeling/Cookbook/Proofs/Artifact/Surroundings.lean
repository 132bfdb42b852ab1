import Cookbook.Proofs.Artifact.Blocks
import Cookbook.Proofs.Artifact.ErrorLines

/-!
# Recipes amid other code

A native artifact may stand in a longer text. What stands in front of it moves the header, but not
what the header holds; what follows it could only be taken for a part of the block, and it is not if
the block has ended.

## Main results

* `compile_ahead`: what an artifact with other text behind it compiles to.
* `compile_surrounded`: an artifact in a longer text compiles to the same recipes.
-/

namespace Cookbook

open Cookbook.Text

namespace Header.NativeSite

variable {introducers : Introducers}

/-- The lines of an artifact with others behind them. -/
def ahead (site : NativeSite introducers) (after : List (List Char))
    (hforeign : ∀ line ∈ after, IsForeign introducers line) : NativeSite introducers where
  above := site.above
  decorated := site.decorated
  between := site.between
  payload := site.payload
  below := site.below ++ after
  isDecorator := site.isDecorator
  isPayload := site.isPayload
  isForeign := by
    intro line hline
    rw [← List.append_assoc, List.mem_append] at hline
    rcases hline with hline | hline
    · exact site.isForeign line hline
    · exact hforeign line hline

end Header.NativeSite

/-- What follows an artifact leaves its header as it is. -/
theorem Header.findNative_append {introducers : Introducers} {text after : List Char}
    {header : Header} (hlines : IsLines text) (h : findNative text introducers = .ok header)
    (hforeign : ∀ line ∈ fullLines after, IsForeign introducers line) :
    findNative (text ++ after) introducers = .ok header := by
  obtain ⟨site, hsite, rfl⟩ := exists_site h
  refine (site.ahead (fullLines after) hforeign).findNative_eq ?_
  rw [fullLines_append hlines, hsite]
  simp [NativeSite.lines, NativeSite.ahead]

namespace Artifact

open Header

variable {introducers : Introducers} {artifact : Artifact} {recipes : List Recipe}
  {before after : String} {header : Header}

/-- With text behind it that introduces nothing and into which its block does not reach, a native
artifact of complete lines compiles to the same recipes, or has the same error. -/
theorem compile_ahead (hnative : artifact.dialect = .native) (hlines : IsLines artifact.text.toList)
    (hforeign : ∀ line ∈ fullLines after.toList, IsForeign introducers line)
    (hheader : findNative artifact.text.toList introducers = .ok header)
    (hended : Body.Ended (dropBytes header.bodyStart artifact.text.toList) after.toList) :
    compile introducers { artifact with text := artifact.text ++ after } =
      compile introducers artifact := by
  obtain ⟨site, hsite, rfl⟩ := exists_site hheader
  have hsource := NativeSite.dropBytes_bodyStart hsite
  rw [hsource] at hended
  have hother : findNative (artifact.text ++ after).toList introducers = .ok site.header := by
    rw [String.toList_append]
    exact findNative_append hlines hheader hforeign
  have hsourceLines : IsLines site.source := by
    rw [NativeSite.eq_append hsite] at hlines
    exact hlines.right
  -- Only the body is read from beyond the header, and its block has ended.
  have hbody : Body.find (artifact.text ++ after).toList site.header .native =
      Body.find artifact.text.toList site.header .native := by
    unfold Body.find
    rw [String.toList_append, dropBytes_append (NativeSite.isBoundary_bodyStart hsite), hsource]
    simp only [if_true, Body.block_append hsourceLines hended]
  have hcompile : compile introducers { artifact with text := artifact.text ++ after } = do
      let registration ← Registration.parse site.header.lineAt site.header.interior
      let body ← Body.find (artifact.text ++ after).toList site.header artifact.dialect
      let rules ← declaredRules site.header registration
      return registration.constraints.map
        (recipeOf introducers artifact site.header registration body rules) :=
    compile_of_findHeader (by rw [hnative]; exact hother)
  rw [hcompile, compile_of_findHeader (by rw [hnative]; exact hheader), hnative, hbody]

/-- A native artifact of complete lines compiles to the same recipes in a longer text, if the lines
in front of it and the text behind it introduce nothing and its block does not reach into what
follows. -/
theorem compile_surrounded (hnative : artifact.dialect = .native)
    (hlines : IsLines artifact.text.toList) (hrecipes : compile introducers artifact = .ok recipes)
    (hbefore : IsLines before.toList)
    (hforeign : ∀ line ∈ fullLines before.toList ++ fullLines after.toList,
      IsForeign introducers line)
    (hheader : findNative artifact.text.toList introducers = .ok header)
    (hended : Body.Ended (dropBytes header.bodyStart artifact.text.toList) after.toList) :
    compile introducers { artifact with text := before ++ artifact.text ++ after } =
      .ok recipes := by
  rw [List.forall_mem_append] at hforeign
  have hother : findNative (artifact.text ++ after).toList introducers = .ok header := by
    rw [String.toList_append]
    exact findNative_append hlines hheader hforeign.2
  -- The text behind makes no difference, and then neither do the lines in front.
  let longer : Artifact := { artifact with text := artifact.text ++ after }
  have hbehind : compile introducers { artifact with text := before ++ (artifact.text ++ after) } =
      (compile introducers longer).mapError (Error.behind (fullLines before.toList).length) :=
    @compile_behind introducers longer before header hnative hbefore hforeign.1 hother
  rw [String.append_assoc, hbehind,
    compile_ahead hnative hlines hforeign.2 hheader hended, hrecipes]
  rfl

/-- A recipe with a literal over several lines, and a comment behind its block. -/
def tidy : Artifact where
  text := "@register(REG, [A, B])\ndef recipe(x):\n    run('''\n=''')\n\n# é\n"
  dialect := .native
  source := "tidy.py"

/-- The recipe between an import and a function. -/
theorem compile_surrounded_tidy : ∃ recipes, compile .default tidy = .ok recipes ∧
    recipes.map (fun recipe => (recipe.constraint, recipe.body)) =
      [("A", "run('''\n=''')"), ("B", "run('''\n=''')")] ∧
    compile .default
      { tidy with text := "import os\n" ++ tidy.text ++ " #\ndef other():\n    recipe(1)" } =
        .ok recipes := by
  have hrun : (compile .default tidy).toOption.map
      (fun recipes => recipes.map fun recipe => (recipe.constraint, recipe.body)) =
        some [("A", "run('''\n=''')"), ("B", "run('''\n=''')")] := by
    decide +kernel
  -- The header that is found, the lines of the block behind it, and the way in which these end.
  have hheader : findNative tidy.text.toList .default =
      .ok ⟨0, 23, 23, "@register(REG, [A, B])\n".toList, 1⟩ :=
    eq_ok_of_toOption (by decide +kernel)
  have hsigned : Body.SignedBy (dropBytes 23 tidy.text.toList) []
      ["    run('''".toList, "=''')".toList, [], "# é".toList, []] :=
    ⟨"\n    run('''\n=''')\n\n# é\n".toList, eq_ok_of_toOption (by decide +kernel),
      by decide +kernel⟩
  have hended : Body.Ended (dropBytes 23 tidy.text.toList)
      " #\ndef other():\n    recipe(1)".toList :=
    .atEnd hsigned (by decide +kernel) (by decide +kernel)
  have hforeign : ∀ line ∈ fullLines "import os\n".toList ++
      fullLines " #\ndef other():\n    recipe(1)".toList, IsForeign .default line := by
    decide +kernel
  cases hcompile : compile .default tidy with
  | error e =>
    rw [hcompile] at hrun
    cases hrun
  | ok recipes =>
    rw [hcompile] at hrun
    exact ⟨recipes, rfl, Option.some.inj hrun, compile_surrounded rfl (by decide) hcompile
      (by decide) hforeign hheader hended⟩

end Artifact

end Cookbook
