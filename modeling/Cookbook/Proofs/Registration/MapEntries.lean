import Cookbook.Proofs.Except
import Cookbook.Proofs.Registration.RuleTexts
import Cookbook.Proofs.Rule.Lowering

/-!
# Argument maps entry by entry

The reader of a map cuts it without knowing what a rule may hold. Every text that compiles as a rule is
cut at its end all the same, so that a map of such texts gives their rules.

## Main definitions

* `mapText`: an argument map with given keys and texts.

## Main results

* `Rule.exists_value_of_compile`: a text that compiles is taken whole, but for the layout at its ends.
* `compileRules_mapText`: a map of texts that compile gives their rules.
-/

namespace Cookbook

open Cookbook.Text Cookbook.Grammar

variable {parameter : String} {text input rest lay : List Char} {rule : Rule} {lineOf : Nat → Nat}

/-! ## One rule -/

/-- A rule that is compiled is read up to layout at the end. -/
theorem Rule.compile_inv (h : Rule.compile parameter text lineOf = .ok rule) :
    ∃ formals term expression lay, Grammar.lambda text = .done (formals, term) lay ∧
      IsLayout lay ∧ Rule.lower formals term = .ok expression ∧
      rule = ⟨parameter, formals, expression⟩ := by
  unfold Rule.compile at h
  dsimp only at h
  split at h
  · split at h
    · next formals term lay hrun hunread =>
      split at h
      · next expression hlower =>
        cases h
        rw [hrun] at hunread
        exact ⟨formals, term, expression, lay, hrun, hunread, hlower, rfl⟩
      · cases h
    · cases h
  · cases h

/-- A text that starts with the word `lambda` and is read whole has a rule if its term has an
expression. -/
theorem Rule.compile_lambda {formals : List String} {term : Term} {expression : Expression}
    (hstart : text = "lambda".toList ++ rest) (hrun : Grammar.lambda text = .done (formals, term) [])
    (hlower : Rule.lower formals term = .ok expression) (parameter : String) (lineOf : Nat → Nat) :
    Rule.compile parameter text lineOf = .ok ⟨parameter, formals, expression⟩ := by
  have htrim : trimStart text = text := by
    rw [hstart]
    exact @trimStart_append_cons [] ("ambda".toList ++ rest) 'l' (List.forall_mem_nil _) (by decide)
  have hprefix : "lambda".toList.isPrefixOf text = true := by
    rw [hstart]
    simp
  have hunread : skipLayout [] = [] := rfl
  simp only [Rule.compile, htrim, hprefix, if_true, hrun, Outcome.rest, hunread, hlower]

theorem isQuote_of_startsGap {c : Char} (h : startsGap c = true) : isQuote c = false := by
  rw [startsGap, Bool.or_eq_true, beq_iff_eq] at h
  rcases h with hspace | rfl
  · exact (of_isPlain (isPlain_of_isSpace hspace)).2.1
  · rfl

/-- An expression that is read up to layout is taken as a value up to a comma on another line. -/
theorem exists_value_of_expression {fuel : Nat} {term : Term}
    (h : Grammar.expression fuel input = .done term lay) (hlay : IsLayout lay) :
    ∃ body, input = body ++ lay ∧ body ≠ [] ∧
      Grammar.expression (body.length + 1) body = .done term [] ∧
      ∀ rest, takeValue false (body ++ (lay ++ '\n' :: ',' :: rest)) = some (body, ',' :: rest) := by
  have hinput := leaves_expression fuel input
  rw [h] at hinput
  obtain ⟨body, rfl⟩ : lay <:+ input := hinput
  have hlength : (body ++ []).length < body.length + 1 := by simp
  obtain ⟨hbody, hpassed⟩ := @settles_expression fuel (body.length + 1) body [] lay term hlay hlength h
  rw [List.append_nil] at hbody
  refine ⟨body, rfl, ?_, hbody, fun rest => ?_⟩
  · rintro rfl
    exact consumes_expression _ _ _ hbody
  · -- The line feed ends a comment that is open at the end.
    have hunquoted : Unquoted (lay ++ '\n' :: ',' :: rest) := by
      intro c hc
      cases lay with
      | nil =>
        obtain rfl : '\n' = c := by simpa using hc
        rfl
      | cons d lay => exact isQuote_of_startsGap (hlay.startsGap c hc)
    have hgap : takeValue false (lay ++ '\n' :: ',' :: rest) = some ([], ',' :: rest) := by
      rw [List.append_cons]
      exact takeValue_gap_comma hlay.isGap rest
    have htake := (hpassed _ hunquoted).outside
    rw [List.nil_append, hgap] at htake
    simpa [keep] using htake

/-- A text that compiles as a rule is taken as one in front of a line feed and a comma, but for the
layout at its ends. What is taken compiles alike, wherever it stands. -/
theorem Rule.exists_value_of_compile (h : Rule.compile parameter text lineOf = .ok rule) :
    ∃ gap value lay, IsGap gap ∧ text = gap ++ value ++ lay ∧
      (∀ rest, skipLayout (value ++ rest) = value ++ rest) ∧
      (∀ rest, takeRule (value ++ (lay ++ '\n' :: ',' :: rest)) = .ok (value, ',' :: rest)) ∧
      ∀ lineOf, Rule.compile parameter value lineOf = .ok rule := by
  -- The text is layout, the word and the formals, the expression, and layout again. What the reader
  -- of rules takes are the parts in the middle.
  obtain ⟨formals, term, expression, lay, hrun, hlay, hlower, rfl⟩ := Rule.compile_inv h
  obtain ⟨names, left, hformals, hterm⟩ := Parser.bind_eq_done_iff.mp hrun
  obtain ⟨found, left', hterm, hdone⟩ := Parser.bind_eq_done_iff.mp hterm
  cases hdone
  obtain ⟨gap, list, hgap, rfl, hother⟩ := exists_of_formals hformals
  obtain ⟨body, rfl, hne, hbody, htake⟩ := exists_value_of_expression hterm hlay
  refine ⟨gap, "lambda".toList ++ (list ++ body), lay, hgap, by simp, fun rest => ?_, fun rest => ?_, ?_⟩
  · exact @skipLayout_cons 'l' ("ambda".toList ++ (list ++ body) ++ rest) rfl
  -- Nothing is trimmed off, for an expression ends in no blank.
  · have hend : trimEnd ("lambda".toList ++ (list ++ body)) = "lambda".toList ++ (list ++ body) := by
      refine dropEndWhile_eq_self fun c hc => ?_
      rw [← List.append_assoc] at hc
      have hlast := (mem_getLast?_append hc).resolve_right fun h => hne h.1
      exact isBlank_getLast?_takeValue (htake rest) c hlast
    have hsplit : ∀ more, "lambda".toList ++ (list ++ body) ++ more =
        "lambda".toList ++ (list ++ (body ++ more)) := by simp
    rw [hsplit, takeRule, hother]
    dsimp only
    rw [htake, ← List.append_assoc, front_append]
    dsimp only
    rw [List.append_assoc, hend]
  · refine Rule.compile_lambda rfl ?_ hlower parameter
    exact Parser.bind_eq_done_iff.mpr ⟨formals, body, hother body,
      Parser.bind_eq_done_iff.mpr ⟨term, [], hbody, rfl⟩⟩

/-! ## Maps -/

/-- An entry of a map: a key in double quotes, a colon, the text of a rule, and a comma on a line of
its own. -/
def entryText (key : String) (rule : List Char) : List Char :=
  '"' :: key.toList ++ "\": ".toList ++ rule ++ "\n,".toList

/-- A map of keys and texts of rules. -/
def mapText (entries : List (String × List Char)) : List Char :=
  '{' :: entries.flatMap (fun entry => entryText entry.1 entry.2) ++ ['}']

/-- The characters that stand for themselves in double quotes. -/
def IsPlainKey (key : String) : Prop :=
  ∀ c ∈ key.toList, c ≠ '"' ∧ c ≠ '\\' ∧ c ≠ '\n'

theorem quoted_of_isPlainKey {key : String} (h : IsPlainKey key) :
    quoted key.toList = '"' :: key.toList ++ ['"'] := by
  have hescaped : ∀ c ∈ key.toList, escaped c = [c] := by
    intro c hc
    obtain ⟨hquote, hslash, hline⟩ := h c hc
    simp [escaped, hquote, hslash, hline]
  rw [quoted, List.flatMap_congr hescaped, List.flatMap_singleton']

/-- An entry is cut at its comma, and the text that is cut compiles like the one that was written. -/
theorem entriesFrom_entryText {key : String} (hkey : IsPlainKey key)
    (h : Rule.compile key text lineOf = .ok rule) (whole rest : List Char) :
    ∃ entry : Entry, entry.key = key ∧
      (∀ lineOf, Rule.compile entry.key entry.value.text lineOf = .ok rule) ∧
      ∀ fuel entries more, entriesFrom whole fuel rest = .ok (entries, more) →
        entriesFrom whole (fuel + 1) (entryText key text ++ rest) = .ok (entry :: entries, more) := by
  obtain ⟨gap, value, lay, hgap, rfl, hskip, htake, hcompile⟩ := Rule.exists_value_of_compile h
  -- What stands behind the key.
  generalize hbehind : ' ' :: (gap ++ (value ++ (lay ++ '\n' :: ',' :: rest))) = behind
  have htext : entryText key (gap ++ value ++ lay) ++ rest = quoted key.toList ++ ':' :: behind := by
    rw [quoted_of_isPlainKey hkey, ← hbehind]
    simp [entryText]
  have hstart : skipLayout (quoted key.toList ++ ':' :: behind) = quoted key.toList ++ ':' :: behind :=
    skipLayout_cons rfl
  have hliteral : literal (quoted key.toList ++ ':' :: behind) = .done key.toList (':' :: behind) :=
    literal_quoted (by simp)
  have hvalue : skipLayout behind = value ++ (lay ++ '\n' :: ',' :: rest) := by
    rw [← hbehind]
    exact (skipLayout_gap (.space (c := ' ') rfl hgap) _).trans (hskip _)
  refine ⟨⟨key, offsetOf whole (quoted key.toList ++ ':' :: behind),
    ⟨offsetOf whole (value ++ (lay ++ '\n' :: ',' :: rest)), value⟩⟩, rfl, hcompile, ?_⟩
  intro fuel entries more hmore
  rw [htext, entriesFrom, hstart]
  split
  · next hclosing => cases hclosing
  · next start _ =>
    have hcolon : skipLayout (':' :: behind) = ':' :: behind := skipLayout_cons rfl
    simp only [hliteral, hcolon, hvalue, htake, hmore, String.ofList_toList]
    rfl

/-- Each entry of a map is cut off in turn. -/
theorem exists_entries_of_forall₂ {entries : List (String × List Char)} {rules : List Rule}
    (hkeys : ∀ entry ∈ entries, IsPlainKey entry.1)
    (h : List.Forall₂ (fun entry rule => ∃ lineOf, Rule.compile entry.1 entry.2 lineOf = .ok rule)
      entries rules) (whole : List Char) :
    ∃ found : List Entry, found.map Entry.key = entries.map Prod.fst ∧
      List.Forall₂ (fun entry rule =>
        ∀ lineOf, Rule.compile entry.key entry.value.text lineOf = .ok rule) found rules ∧
      ∀ fuel, entries.length < fuel →
        entriesFrom whole fuel
            (entries.flatMap (fun entry => entryText entry.1 entry.2) ++ ['}']) =
          .ok (found, []) := by
  -- The entries in front are cut off no matter what follows, so those behind may come first.
  induction h with
  | nil =>
    refine ⟨[], rfl, .nil, fun fuel hfuel => ?_⟩
    obtain ⟨fuel, rfl⟩ := Nat.exists_eq_add_one_of_ne_zero (Nat.ne_zero_of_lt hfuel)
    rfl
  | @cons entry rule entries rules hrule _ ih =>
    rw [List.forall_mem_cons] at hkeys
    obtain ⟨lineOf, hrule⟩ := hrule
    obtain ⟨found, hfound, hrules, hrun⟩ := ih hkeys.2
    obtain ⟨first, hkey, hfirst, hcut⟩ := entriesFrom_entryText hkeys.1 hrule whole
      (entries.flatMap (fun entry => entryText entry.1 entry.2) ++ ['}'])
    refine ⟨first :: found, by rw [List.map_cons, List.map_cons, hkey, hfound], .cons hfirst hrules,
      fun fuel hfuel => ?_⟩
    obtain ⟨fuel, rfl⟩ := Nat.exists_eq_add_one_of_ne_zero (Nat.ne_zero_of_lt hfuel)
    rw [List.flatMap_cons, List.append_assoc]
    exact hcut fuel found [] (hrun fuel (Nat.lt_of_succ_lt_succ hfuel))

theorem rulesOfEntries_of_forall₂ {entries : List Entry} {rules : List Rule} {earlier : List String}
    (h : List.Forall₂ (fun entry rule =>
      ∀ lineOf, Rule.compile entry.key entry.value.text lineOf = .ok rule) entries rules)
    (hdistinct : (entries.map Entry.key).Nodup) (hearlier : ∀ entry ∈ entries, entry.key ∉ earlier)
    (lineOf : Nat → Nat) (base : Nat) : rulesOfEntries lineOf base earlier entries = .ok rules := by
  -- The keys that were used are the `earlier` ones and those of the entries in front.
  induction h generalizing earlier with
  | nil => rfl
  | @cons entry rule entries rules hrule _ ih =>
    rw [List.map_cons, List.nodup_cons] at hdistinct
    rw [List.forall_mem_cons] at hearlier
    have hmore : ∀ other ∈ entries, other.key ∉ entry.key :: earlier := by
      intro other hother hmem
      rcases List.mem_cons.mp hmem with heq | hmem
      · exact hdistinct.1 (heq ▸ List.mem_map_of_mem hother)
      · exact hearlier.2 other hother hmem
    rw [rulesOfEntries, if_neg hearlier.1]
    dsimp only
    rw [hrule, ih hdistinct.2 hmore]
    rfl

theorem length_le_mapText (entries : List (String × List Char)) :
    entries.length ≤ (entries.flatMap fun entry => entryText entry.1 entry.2).length := by
  induction entries with
  | nil => exact Nat.le_refl _
  | cons entry entries ih =>
    rw [List.flatMap_cons, List.length_append, List.length_cons, entryText]
    simp only [List.length_append, List.length_cons]
    omega

/-- A map of texts that compile gives their rules: nothing in one of them splits it or takes anything of
the next one. -/
theorem compileRules_mapText {entries : List (String × List Char)} {rules : List Rule}
    (hdistinct : (entries.map Prod.fst).Nodup) (hkeys : ∀ entry ∈ entries, IsPlainKey entry.1)
    (h : List.Forall₂ (fun entry rule => ∃ lineOf, Rule.compile entry.1 entry.2 lineOf = .ok rule)
      entries rules) (lineOf : Nat → Nat) (offset : Nat) :
    compileRules lineOf ⟨offset, mapText entries⟩ = .ok rules := by
  obtain ⟨found, hfound, hrules, hrun⟩ := exists_entries_of_forall₂ hkeys h (mapText entries)
  -- Each entry takes a character at least, so the reader does not run out of fuel.
  have hfuel : entries.length < (mapText entries).length + 1 := by
    have hlength := length_le_mapText entries
    simp only [mapText, List.length_append, List.length_cons]
    omega
  have hsplit : splitEntries (mapText entries) = .ok found := by
    have hopen : skipLayout (mapText entries) = mapText entries := skipLayout_cons rfl
    have hdone := hrun _ hfuel
    have hend : skipLayout [] = [] := rfl
    rw [splitEntries, hopen]
    simp only [mapText, List.cons_append] at hdone ⊢
    rw [hdone]
    simp only [hend]
  rw [compileRules, hsplit]
  dsimp only
  exact rulesOfEntries_of_forall₂ hrules (hfound ▸ hdistinct) (by simp) lineOf offset

/-- Two rules with everything that could split a map in their formals, literals, calls and comments. -/
def crowdedEntries : List (String × List Char) :=
  [("a", " lambda p, # \x7d, [\n q,: (\"], '\" + p.x) if q.on else str(p,) # , \"b\": \x7b".toList),
    ("b", "lambda: '\x7d, \"a\": \x7b'".toList)]

theorem compileRules_mapText_crowded :
    compileRules (fun offset => offset) ⟨7, mapText crowdedEntries⟩ = .ok
      [⟨"a", ["p", "q"], .conditional (.field "q" ["on"])
          (.format "], '\x7b\x7d" [⟨none, .field "p" ["x"]⟩])
          (.format "\x7b\x7d" [⟨none, .field "p" []⟩])⟩,
        ⟨"b", [], .literal (.text "\x7d, \"a\": \x7b")⟩] := by
  have hkeys : ∀ entry ∈ crowdedEntries, IsPlainKey entry.1 := by
    simp [IsPlainKey, crowdedEntries]
  refine compileRules_mapText (by decide) hkeys
    (.cons ⟨fun offset => offset, ?_⟩ (.cons ⟨id, ?_⟩ .nil)) _ _
  · exact eq_ok_of_toOption (by decide +kernel)
  · exact eq_ok_of_toOption (by decide +kernel)

end Cookbook
