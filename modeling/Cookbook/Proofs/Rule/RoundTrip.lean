import Cookbook.Proofs.Rule.Reading
import Cookbook.Rule.Compile

/-!
# Compiling what is written

Compiling any text of a rule gives the meaning of the formals and of the term for which it was
written: neither layout nor parentheses nor the spelling of literals is lost or misread.

## Main results

* `lambda_written`: the grammar gives back the formals and the term.
* `Rule.compile_written`: so compiling a text is lowering its term.
-/

namespace Cookbook

open Cookbook.Text Cookbook.Grammar

variable {formals : List String} {term : Term} {spaces text gap rest : List Char}

/-! ## Formals -/

/-- Formals are items of a list that ends with a colon. -/
theorem IsName.item {bound : Nat} {id : String} (h : IsName id) :
    ReadsItem name ':' bound id id.toList where
  start := by
    obtain ⟨c, tail, hcons, hc, -⟩ := exists_cons_of_isIdentifier h.1
    exact ⟨c, tail, hcons, (of_isIdentStart hc).1, ne_of_test hc rfl⟩
  reads := by
    intro gap d rest hgap hd _
    have hboundary : Boundary (gap ++ d :: rest) :=
      boundary_gap hgap (by rcases hd with rfl | rfl <;> exact .cons rfl)
    exact name_append h fun c hc => (hboundary c hc).1

/-- After the word `lambda` stands something that does not continue it. -/
theorem boundary_listed {list : List Char} {comma : Bool}
    (h : Listed ':' (formals.map String.toList) comma list)
    (hbreak : formals ≠ [] → ∃ c rest, list = c :: rest ∧ startsGap c = true) :
    Boundary (list ++ rest) := by
  cases formals with
  | nil =>
    cases h with
    | nil hgap =>
      rw [List.append_assoc]
      exact boundary_gap hgap (.cons rfl)
  | cons formal formals =>
    obtain ⟨c, tail, rfl, hc⟩ := hbreak (List.cons_ne_nil _ _)
    exact boundary_of_startsGap hc

theorem formals_written {list : List Char} {comma : Bool} (hformals : ∀ f ∈ formals, IsName f)
    (hspaces : IsGap spaces) (h : Listed ':' (formals.map String.toList) comma list)
    (hbreak : formals ≠ [] → ∃ c rest, list = c :: rest ∧ startsGap c = true) :
    Grammar.formals (spaces ++ ("lambda".toList ++ (list ++ rest))) = .done formals rest := by
  -- The three parts of the text in the order in which they are read: layout, the word, and the
  -- formals up to the colon.
  have hskip : layout (spaces ++ ("lambda".toList ++ (list ++ rest))) =
      .done () ("lambda".toList ++ (list ++ rest)) := by
    rw [layout]
    exact congrArg _ (skipLayout_gap_cons (c := 'l') hspaces rfl)
  have hword : word "lambda" ("lambda".toList ++ (list ++ rest)) = .done () (list ++ rest) := by
    rw [word, afterWord?_append fun c hc => (boundary_listed h hbreak c hc).1]
  have hitems : List.Forall₂ (ReadsItem name ':' ((list ++ rest).length + 1)) formals
      (formals.map String.toList) := by
    rw [List.forall₂_map_right_iff, List.forall₂_same]
    exact fun f hf => (hformals f hf).item
  have hlist : separated ':' name ((list ++ rest).length + 1) (list ++ rest) =
      .done (formals, comma) rest :=
    separated_listed h (by decide) (by decide) hitems (Nat.lt_succ_self _) (Nat.lt_succ_self _)
  refine Parser.bind_eq_done_iff.mpr ⟨(), _, hskip, ?_⟩
  refine Parser.bind_eq_done_iff.mpr ⟨(), _, hword, ?_⟩
  show (separated ':' name ((list ++ rest).length + 1) (list ++ rest)).map Prod.fst = _
  rw [hlist]
  rfl

/-! ## Rules -/

/-- A gap at the end of a text ends the expression in front of it. -/
theorem endsExpression_gap (hgap : IsGap gap) : EndsExpression gap := by
  have hskip : skipLayout gap = [] := skipLayout_eq_nil_of_gap hgap
  refine ⟨⟨?_, by simp [hskip]⟩, by rw [hskip]; rfl⟩
  have hnil : Boundary [] := fun c hc => nomatch hc
  simpa using boundary_gap hgap hnil

/-- The grammar gives back the formals and the term, and leaves nothing but layout. -/
theorem lambda_written (hformals : ∀ f ∈ formals, IsName f) (hspaces : IsGap spaces)
    (h : WrittenRule formals term text) :
    ∃ rest, Grammar.lambda (spaces ++ text) = .done (formals, term) rest ∧ skipLayout rest = [] := by
  obtain ⟨hlisted, hbreak, hgap, hwritten, hafter⟩ := h
  rename_i list gap body after comma
  refine ⟨after, ?_, skipLayout_eq_nil_of_gap hafter⟩
  have hfront : Grammar.formals (spaces ++ ("lambda".toList ++ (list ++ (gap ++ (body ++ after))))) =
      .done formals (gap ++ (body ++ after)) := formals_written hformals hspaces hlisted hbreak
  have hterm : expression ((gap ++ (body ++ after)).length + 1) (gap ++ (body ++ after)) =
      .done term after := by
    rw [expression_gap hgap (Nat.succ_pos _)]
    refine hwritten.reads (endsExpression_gap hafter) ?_
    simp only [List.length_append]
    omega
  simp only [List.append_assoc]
  refine Parser.bind_eq_done_iff.mpr ⟨formals, _, hfront, ?_⟩
  exact Parser.bind_eq_done_iff.mpr ⟨term, after, hterm, rfl⟩

/-- Compiling a text of a rule is lowering its term: for all names as formals and every writable
term there is a text, and every text is compiled so. -/
theorem Rule.compile_written (hformals : ∀ f ∈ formals, IsName f) (hterm : term.Writable) :
    (∃ text, WrittenRule formals term text) ∧
      ∀ (spaces text : List Char) (parameter : String) (lineOf : Nat → Nat),
        (∀ c ∈ spaces, isSpace c = true) → WrittenRule formals term text →
          (∃ rest, Grammar.lambda (spaces ++ text) = .done (formals, term) rest ∧
            skipLayout rest = []) ∧
          Rule.compile parameter (spaces ++ text) lineOf =
            match Rule.lower formals term with
            | .ok expression => .ok ⟨parameter, formals, expression⟩
            | .error construct =>
              .error (.unsupported parameter construct (lineOf (byteSize spaces))) := by
  refine ⟨exists_writtenRule formals hterm, fun spaces text parameter lineOf hspaces h => ?_⟩
  obtain ⟨rest, hread, hrest⟩ := lambda_written hformals (.of_spaces hspaces) h
  refine ⟨⟨rest, hread, hrest⟩, ?_⟩
  -- The compiler looks for the word in front before it runs the grammar, and reports that place if
  -- it cannot lower the term.
  have hstart : ∃ tail, text = "lambda".toList ++ tail := by
    obtain ⟨hlisted, hbreak, hgap, hwritten, hafter⟩ := h
    exact ⟨_, by simp only [List.append_assoc]; rfl⟩
  obtain ⟨tail, htext⟩ := hstart
  have htrim : trimStart (spaces ++ text) = text := by
    rw [htext]
    exact trimStart_append_cons (fun c hc => isBlank_of_isSpace (hspaces c hc)) (by decide)
  have hprefix : "lambda".toList.isPrefixOf text = true := by
    rw [htext]
    simp
  cases hlower : Rule.lower formals term <;>
    simp only [Rule.compile, htrim, hprefix, if_true, hread, Outcome.rest, hrest, offsetOf_append,
      hlower]

/-- A term with a choice, a tuple, a sum, a call and a macro. -/
def crowdedTerm : Term :=
  .conditional
    (.tuple [.sum [.text "\"#)\n", .call (.name "str") [⟨none, .attribute (.name "a") "x"⟩]],
      .name "context"])
    (.attribute (.name "a") "ready")
    (.macroCall "format" [⟨none, .text "\x7bk\x7d"⟩, ⟨some "k", .bool true⟩])

/-- A text of a rule over that term, with brackets and signs of comments in literals, and with
quotes and commas in comments. -/
def crowdedText : List Char :=
  ("lambda a ,# \",:\n context,: (\"\\\"#)\\n\" + str ( ( a . x ) ), context) if a.ready#:\n" ++
    "else format!( \"\x7bk\x7d\" , k=(true),) ").toList

theorem isName_of_crowded : ∀ id ∈ ["a", "x", "k", "ready", "context"], IsName id := by
  unfold IsName
  decide

theorem isVariable_of_crowded : ∀ id ∈ ["a", "str", "format", "context"], IsVariable id := by
  unfold IsVariable IsName
  decide

theorem writtenRule_crowded : WrittenRule ["a", "context"] crowdedTerm crowdedText := by
  -- From the inside out: the sum and the tuple around it, the condition, and the call of the macro.
  have ha : Written .access (.name "a") "a".toList := .name (isVariable_of_crowded _ (by decide))
  have hx : Written .access (.attribute (.name "a") "x") "a . x".toList :=
    .field ha .blank .blank (isName_of_crowded _ (by decide))
  have hstr : Written .access (.call (.name "str") [⟨none, .attribute (.name "a") "x"⟩])
      "str ( ( a . x ) )".toList :=
    @Written.call _ [⟨⟨none, .attribute (.name "a") "x"⟩, [], "( a . x )".toList⟩] _ _ _ false
      (.name (isVariable_of_crowded "str" (by decide))) .blank
      (List.forall_mem_singleton.mpr .positional)
      (List.forall_mem_singleton.mpr (.plain (.part (.group .blank .blank (.plain (.part hx))))))
      (.last .blank .blank)
  have hsum : Written .sum (.sum [.text "\"#)\n", .call (.name "str") [⟨none, .attribute (.name "a") "x"⟩]])
      "\"\\\"#)\\n\" + str ( ( a . x ) )".toList :=
    @Written.sum _ _ [⟨_, [' '], [' '], "str ( ( a . x ) )".toList⟩] (.text _) (by simp)
      (List.forall_mem_singleton.mpr ⟨.blank, .blank⟩) (List.forall_mem_singleton.mpr hstr)
  have hcontext : Written .access (.name "context") "context".toList :=
    .name (isVariable_of_crowded _ (by decide))
  have htuple : Written .access
      (.tuple [.sum [.text "\"#)\n", .call (.name "str") [⟨none, .attribute (.name "a") "x"⟩]],
        .name "context"]) "(\"\\\"#)\\n\" + str ( ( a . x ) ), context)".toList :=
    @Written.tuple [(_, _), (_, _)] false _
      (List.forall_mem_cons.mpr ⟨.plain hsum, List.forall_mem_singleton.mpr (.plain (.part hcontext))⟩)
      (by simp) (.cons .nil .nil (.last .blank .nil))
  have hready : Written .access (.attribute (.name "a") "ready") "a.ready".toList :=
    .field ha .nil .nil (isName_of_crowded _ (by decide))
  have hmacro : Written .access
      (.macroCall "format" [⟨none, .text "\x7bk\x7d"⟩, ⟨some "k", .bool true⟩])
      "format!( \"\x7bk\x7d\" , k=(true),)".toList :=
    @Written.macroCall "format" [⟨⟨none, .text "\x7bk\x7d"⟩, [], "\"\x7bk\x7d\"".toList⟩,
        ⟨⟨some "k", .bool true⟩, "k=".toList, "(true)".toList⟩] true _
      (isVariable_of_crowded _ (by decide))
      (List.forall_mem_cons.mpr ⟨.positional, List.forall_mem_singleton.mpr
        (.labelled (isName_of_crowded _ (by decide)) .nil .nil)⟩)
      (List.forall_mem_cons.mpr ⟨.plain (.part (.text _)), List.forall_mem_singleton.mpr
        (.plain (.part (.group .nil .nil (.plain (.part (@Written.bool true "true" (by decide)))))))⟩)
      (.cons .blank .blank (.cons .blank .nil (.nil .nil)))
  -- The words of the conditional stand between gaps, one of which is a comment.
  have hspace : IsBreak [' '] := ⟨.blank, by simp⟩
  have hcomment : IsBreak "#:\n".toList :=
    ⟨@IsGap.comment [':'] [] (by decide) .nil, by simp⟩
  have hformals : Listed ':' (["a", "context"].map String.toList) true
      " a ,# \",:\n context,:".toList :=
    .cons .blank .blank (.cons (@IsGap.comment " \",:".toList [' '] (by decide) .blank) .nil
      (.nil .nil))
  -- What was put together is the text as it is written.
  have htext : crowdedText = "lambda".toList ++ " a ,# \",:\n context,:".toList ++ [' '] ++
      ("(\"\\\"#)\\n\" + str ( ( a . x ) ), context)".toList ++ [' '] ++ "if".toList ++ [' '] ++
        "a.ready".toList ++ "#:\n".toList ++ "else".toList ++ [' '] ++
        "format!( \"\x7bk\x7d\" , k=(true),)".toList) ++ [' '] := by
    decide +kernel
  rw [htext]
  exact .intro hformals (fun _ => ⟨' ', _, rfl, rfl⟩) .blank
    (.conditional (.part htuple) (.part hready) (.plain (.part hmacro)) hspace hspace hcomment hspace)
    .blank

theorem writable_crowded : crowdedTerm.Writable := by
  have ha : (Term.name "a").Writable := .name (isVariable_of_crowded _ (by decide))
  have hstr : (Term.call (.name "str") [⟨none, .attribute (.name "a") "x"⟩]).Writable :=
    .call (.name (isVariable_of_crowded _ (by decide))) (by simp)
      (List.forall_mem_singleton.mpr (.field ha (isName_of_crowded _ (by decide))))
  refine .conditional (.tuple ?_) (.field ha (isName_of_crowded _ (by decide)))
    (.macroCall (isVariable_of_crowded _ (by decide)) ?_ ?_)
  · exact List.forall_mem_cons.mpr ⟨.sum (by decide) (by simpa using ⟨.text _, hstr⟩),
      List.forall_mem_singleton.mpr (.name (isVariable_of_crowded _ (by decide)))⟩
  · simpa using isName_of_crowded "k" (by decide)
  · simpa using ⟨.text _, .bool _⟩

theorem Rule.compile_crowded :
    (∀ f ∈ ["a", "context"], IsName f) ∧ crowdedTerm.Writable ∧
      Rule.compile "p" ("\n\t".toList ++ crowdedText) id =
        .ok ⟨"p", ["a", "context"],
          .conditional (.field "a" ["ready"])
            (.format "\"#)\n\x7b\x7d"
              [⟨none, .format "\x7b\x7d" [⟨none, .field "a" ["x"]⟩]⟩])
            (.format "\x7bk\x7d" [⟨some "k", .literal (.bool true)⟩])⟩ := by
  have hformals : ∀ f ∈ ["a", "context"], IsName f := by
    unfold IsName
    decide
  have hspaces : ∀ c ∈ "\n\t".toList, isSpace c = true := List.all_eq_true.mp (by decide)
  have hcompile := ((Rule.compile_written hformals writable_crowded).2 "\n\t".toList crowdedText "p" id
    hspaces writtenRule_crowded).2
  exact ⟨hformals, writable_crowded, hcompile.trans rfl⟩

end Cookbook
