import Cookbook.Proofs.Artifact.ErrorLines
import Cookbook.Proofs.Text.Lines

/-!
# One recipe in several marked dialects

A header may be written in line comments or between the markers of a block comment, with a payload
behind it. The same interior is read from either, at the same lines, and the same body, so that what
the call declares does not depend on the dialect. Only the entrypoint may, where the call leaves it
to the dialect.

## Main definitions

* `Marked`: the texts in which a header and a payload are written, by dialect.
* `NamesEntrypoint`: the call of a header has an entrypoint of its own.

## Main results

* `find_marked`: the header of a marked artifact, and what follows it.
* `compile_marked`: a recipe compiles alike in all marked dialects.
-/

namespace Cookbook

open Cookbook.Text

variable {word text : List Char}

/-! ## Headers in line comments -/

namespace Header

/-- A text with a comment sign and a space in front of each line. -/
def commentOut (text : List Char) : List Char :=
  joinLines ((splitLines text).map fun line => '#' :: ' ' :: line)

/-- Comment signs are taken away again, and lines without one are left alone. -/
theorem stripComments_commentOut (text : List Char) :
    stripComments ('\n' :: (commentOut text ++ ['\n'])) = '\n' :: (text ++ ['\n']) := by
  have hlines : ∀ line ∈ (splitLines text).map fun line => '#' :: ' ' :: line, '\n' ∉ line := by
    intro line hline
    obtain ⟨bare, hbare, rfl⟩ := List.mem_map.mp hline
    simpa using lineFeed_not_mem_of_mem_splitLines hbare
  -- The first and the last line are empty, as the line feeds at the ends are there. Between them is
  -- one commented line for each line of the text.
  have hsplit : splitLines ('\n' :: (commentOut text ++ ['\n'])) =
      [] :: ((splitLines text).map (fun line => '#' :: ' ' :: line) ++ [[]]) := by
    rw [splitLines, if_pos rfl, splitLines_append, commentOut,
      splitLines_joinLines (by simpa using splitLines_ne_nil text) hlines]
    rfl
  have hstrip : ((splitLines text).map fun line => '#' :: ' ' :: line).map stripComment =
      splitLines text := by
    rw [List.map_map]
    exact List.map_id _
  rw [stripComments, hsplit, List.map_cons, List.map_append, hstrip]
  calc joinLines ([[]] ++ (splitLines text ++ [[]]))
      = '\n' :: joinLines (splitLines text ++ [[]]) :=
        joinLines_append (List.cons_ne_nil _ _) (by simp)
    _ = '\n' :: (text ++ ['\n']) := by
        rw [joinLines_append (splitLines_ne_nil text) (List.cons_ne_nil _ _), joinLines_splitLines]
        rfl

/-- A word that is no part of a text, and has neither line feeds nor spaces, is no part of the text
in comments, unless it is a comment sign. -/
theorem not_infix_commentOut (hne : word ≠ []) (hline : '\n' ∉ word) (hspace : ' ' ∉ word)
    (hsign : ¬word <:+: ['#']) (h : ¬word <:+: text) : ¬word <:+: commentOut text := by
  intro hpart
  obtain ⟨line, hmem, hpart⟩ := exists_infix_of_joinLines hne hline hpart
  obtain ⟨bare, hbare, rfl⟩ := List.mem_map.mp hmem
  rcases infix_append_cons hspace ['#'] hpart with hpart | hpart
  · exact hsign hpart
  · exact h (hpart.trans (joinLines_splitLines text ▸ infix_joinLines hbare))

/-! ## Marked artifacts -/

/-- An artifact with its header in line comments. -/
def commentedText (header payload : String) : String :=
  "###+\n" ++ String.ofList (commentOut header.toList) ++ "\n###+" ++ payload

/-- An artifact with its header in a block comment. -/
def starredText (header payload : String) : String :=
  "/***\n" ++ header ++ "\n***/" ++ payload

/-- The text in which a header and a payload are written in a dialect with markers. -/
inductive Marked (header payload : String) : Dialect → String → Prop where
  | shell : Marked header payload .shell (commentedText header payload)
  | statistical : Marked header payload .statistical (commentedText header payload)
  | query : Marked header payload .query (starredText header payload)

variable {header payload : String} {dialect : Dialect} {introducers : Introducers}

theorem Marked.ne_native {artifact : String} (h : Marked header payload dialect artifact) :
    dialect ≠ .native := by
  cases h <;> exact Dialect.noConfusion

/-- What is read as the header of a marked artifact: its header on lines of its own, starting behind
the marker on the first line. -/
def interiorOf (header : String) : List Char :=
  '\n' :: (header.toList ++ ['\n'])

theorem find_of_markers {text : List Char} {opening closing : String}
    (h : dialect.markers? = some (opening, closing)) :
    find text dialect introducers = findMarked text opening closing dialect.commentsHeader := by
  unfold find
  rw [h]

/-- The header between two markers, of which the second starts a line. -/
theorem findMarked_lines {opening closing : String} {text lines payload interior : List Char}
    {comments : Bool} (hne : closing.toList ≠ []) (hline : '\n' ∉ closing.toList)
    (h : ¬closing.toList <:+: lines)
    (htext : text = opening.toList ++ ('\n' :: lines ++ '\n' :: (closing.toList ++ payload)))
    (hinterior : (if comments then stripComments ('\n' :: lines ++ ['\n']) else
      '\n' :: lines ++ ['\n']) = interior) :
    ∃ stop, findMarked text opening closing comments = .ok ⟨0, stop, stop, interior, 1⟩ ∧
      dropBytes stop text = payload := by
  -- A word without line feeds that stands behind the first line feed stands on the lines.
  have hword : ¬closing.toList <:+: '\n' :: lines := by
    intro hpart
    rcases infix_append_cons hline [] hpart with hpart | hpart
    · exact hne (List.infix_nil.mp hpart)
    · exact h hpart
  have hbreak := breakOn?_lineFeed hne hline hword payload
  subst htext hinterior
  refine ⟨opening.utf8ByteSize + byteSize ('\n' :: lines ++ ['\n']) + closing.utf8ByteSize,
    ?_, ?_⟩
  · unfold findMarked
    rw [isPrefixOf?_append]
    simp only [hbreak]
  · have hsize : opening.utf8ByteSize + byteSize ('\n' :: lines ++ ['\n']) + closing.utf8ByteSize =
        byteSize (opening.toList ++ ('\n' :: lines ++ ['\n'] ++ closing.toList)) := by
      simp only [byteSize_append, byteSize_toList, Nat.add_assoc]
    have htext : opening.toList ++ ('\n' :: lines ++ '\n' :: (closing.toList ++ payload)) =
        opening.toList ++ ('\n' :: lines ++ ['\n'] ++ closing.toList) ++ payload := by
      simp
    rw [hsize, htext, dropBytes_byteSize_append]

/-- Whatever the dialect, the same header is found in a marked artifact, and the payload follows. -/
theorem find_marked {text : String} (h : Marked header payload dialect text)
    (hcomment : contains "###+".toList header.toList = false)
    (hstar : contains "***/".toList header.toList = false) :
    ∃ stop, find text.toList dialect introducers =
        .ok ⟨0, stop, stop, interiorOf header, 1⟩ ∧
      dropBytes stop text.toList = payload.toList := by
  -- The signs in front of the lines make no marker: a marker has no space in it.
  have hcommented : ∃ stop, findMarked (commentedText header payload).toList "###+" "###+" true =
        .ok ⟨0, stop, stop, interiorOf header, 1⟩ ∧
      dropBytes stop (commentedText header payload).toList = payload.toList := by
    refine @findMarked_lines "###+" "###+" _ (commentOut header.toList) _ _ true (by decide)
      (by decide) ?_ (by simp [commentedText]) (stripComments_commentOut header.toList)
    exact not_infix_commentOut (by decide) (by decide) (by decide) (by decide)
      (not_infix_of_contains hcomment)
  have hstarred : ∃ stop, findMarked (starredText header payload).toList "/***" "***/" false =
        .ok ⟨0, stop, stop, interiorOf header, 1⟩ ∧
      dropBytes stop (starredText header payload).toList = payload.toList :=
    @findMarked_lines "/***" "***/" _ header.toList _ _ false (by decide) (by decide)
      (not_infix_of_contains hstar) (by simp [starredText]) rfl
  cases h with
  | shell =>
    rw [@find_of_markers .shell _ _ "###+" "###+" rfl]
    exact hcommented
  | statistical =>
    rw [@find_of_markers .statistical _ _ "###+" "###+" rfl]
    exact hcommented
  | query =>
    rw [@find_of_markers .query _ _ "/***" "***/" rfl]
    exact hstarred

end Header

/-! ## Bodies -/

namespace Body

/-- The body that a payload behind a marked header is. -/
def ofPayload (payload : List Char) : Except Error (List Char) :=
  if (trim payload).isEmpty then .error .emptyBody else .ok (trim payload)

theorem find_of_ne_native {text payload : List Char} {header : Header} {dialect : Dialect}
    (h : dialect ≠ .native) (hdrop : dropBytes header.bodyStart text = payload) :
    find text header dialect = ofPayload payload := by
  rw [find, hdrop, if_neg h]
  rfl

end Body

/-! ## Entrypoints of calls -/

namespace Settings

variable {settings settings' : Settings} {label : String} {value : Segment} {seen : List String}
  {arguments : List (Argument Segment)}

/-- An entrypoint that is set stays set, and the label for it sets it. -/
theorem isSome_entrypoint_of_set (h : settings.set label value = .ok settings')
    (hset : settings.entrypoint.isSome = true ∨ label = "entrypoint") :
    settings'.entrypoint.isSome = true := by
  unfold set at h
  split at h
  case h_2 =>
    split at h
    · cases h
      rfl
    · cases h
  case h_6 _ hother _ _ _ =>
    cases h
    exact hset.resolve_right hother
  -- The other labels leave the entrypoint as it is.
  all_goals try split at h
  all_goals cases h
  all_goals exact hset.resolve_right (by decide)

theorem isSome_entrypoint_of_read (h : settings.read seen arguments = .ok settings')
    (hset : settings.entrypoint.isSome = true ∨ ∃ a ∈ arguments, a.label = some "entrypoint") :
    settings'.entrypoint.isSome = true := by
  fun_induction read seen settings arguments with
  | case1 =>
    cases h
    simpa using hset
  | case2 seen settings value rest ih =>
    exact ih h (by simpa using hset)
  | case3 => cases h
  | case4 seen settings label value rest hseen next hnext ih =>
    refine ih h ?_
    -- An entrypoint that is set stays set, and the label is either this one or one further on.
    rcases hset with hset | ⟨a, ha, hlabel⟩
    · exact .inl (isSome_entrypoint_of_set hnext (.inl hset))
    · rcases List.mem_cons.mp ha with rfl | ha
      · exact .inl (isSome_entrypoint_of_set hnext (.inr (Option.some.inj hlabel)))
      · exact .inr ⟨a, ha, hlabel⟩
  | case5 => cases h

end Settings

/-! ## Compiling marked artifacts -/

namespace Artifact

open Header

variable {header payload source text text' : String} {dialect dialect' : Dialect}
  {introducers : Introducers}

/-- The header of a marked artifact, without its end. -/
def headerOf (header : String) : Header :=
  ⟨0, 0, 0, interiorOf header, 1⟩

/-- What a marked artifact declares and runs, whatever its dialect. -/
def markedParts (header payload : String) : Except Error (Registration × List Char × List Rule) := do
  let registration ← Registration.parse (headerOf header).lineAt (interiorOf header)
  let body ← Body.ofPayload payload.toList
  let rules ← declaredRules (headerOf header) registration
  return (registration, body, rules)

/-- The recipes of a marked artifact with these parts. -/
def recipesOf (introducers : Introducers) (dialect : Dialect) (source : String) (header : String) :
    Registration × List Char × List Rule → List Recipe
  | (registration, body, rules) =>
    registration.constraints.map
      (recipeOf introducers ⟨"", dialect, source⟩ (headerOf header) registration body rules)

theorem compile_eq_markedParts (h : Marked header payload dialect text)
    (hcomment : contains "###+".toList header.toList = false)
    (hstar : contains "***/".toList header.toList = false) :
    compile introducers ⟨text, dialect, source⟩ =
      (markedParts header payload).map (recipesOf introducers dialect source header) := by
  obtain ⟨stop, hfind, hdrop⟩ := find_marked h hcomment hstar
  rw [@compile_of_findHeader introducers ⟨text, dialect, source⟩ _ hfind,
    Body.find_of_ne_native h.ne_native hdrop, markedParts]
  show (Registration.parse (headerOf header).lineAt (interiorOf header) >>= _) = _
  cases Registration.parse (headerOf header).lineAt (interiorOf header) with
  | error e => rfl
  | ok registration =>
    cases Body.ofPayload payload.toList with
    | error e => rfl
    | ok body =>
      show (declaredRules (headerOf header) registration >>= _) =
        (declaredRules (headerOf header) registration >>= fun rules =>
          pure (registration, body, rules)).map (recipesOf introducers dialect source header)
      cases declaredRules (headerOf header) registration <;> rfl

/-- The call of a header has an argument with the label for the entrypoint. -/
def NamesEntrypoint (header : String) : Prop :=
  ∃ call arguments, Call.find (interiorOf header) = .ok call ∧
    call.arguments (interiorOf header) = .ok arguments ∧
    ∃ a ∈ arguments, a.label = some "entrypoint"

theorem isSome_entrypoint_of_namesEntrypoint {registration : Registration}
    (hnames : NamesEntrypoint header)
    (h : Registration.find (interiorOf header) = .ok registration) :
    registration.settings.entrypoint.isSome = true := by
  obtain ⟨call, arguments, hcall, harguments, hlabel⟩ := hnames
  unfold Registration.find at h
  obtain ⟨call', hcall', h⟩ := bind_eq_ok_iff.mp h
  obtain rfl := Except.ok.inj (hcall.symm.trans hcall')
  obtain ⟨arguments', harguments', h⟩ := bind_eq_ok_iff.mp h
  obtain rfl := Except.ok.inj (harguments.symm.trans harguments')
  obtain ⟨settings, hsettings, h⟩ := bind_eq_ok_iff.mp h
  have hentrypoint := Settings.isSome_entrypoint_of_read hsettings (.inr hlabel)
  split at h
  · split at h
    · cases h
      exact hentrypoint
    · cases h
  · cases h

theorem find_of_markedParts {registration : Registration} {body : List Char} {rules : List Rule}
    (h : markedParts header payload = .ok (registration, body, rules)) :
    Registration.find (interiorOf header) = .ok registration := by
  obtain ⟨parsed, hparse, h⟩ := bind_eq_ok_iff.mp h
  obtain ⟨_, -, h⟩ := bind_eq_ok_iff.mp h
  obtain ⟨_, -, h⟩ := bind_eq_ok_iff.mp h
  cases h
  unfold Registration.parse at hparse
  split at hparse
  · next hfind =>
    cases hparse
    exact hfind
  · cases hparse

/-- The entrypoint depends on the dialect only if the call has none. -/
theorem entrypoint_congr {interior : List Char} {registration : Registration}
    (hleft : dialect ≠ .native) (hright : dialect' ≠ .native)
    (h : registration.settings.entrypoint.isSome = true ∨
      dialect.namesEntrypointInHeader = dialect'.namesEntrypointInHeader) :
    entrypoint dialect introducers interior registration =
      entrypoint dialect' introducers interior registration := by
  unfold entrypoint
  cases hentrypoint : registration.settings.entrypoint with
  | some name => rfl
  | none =>
    rw [hentrypoint] at h
    rw [if_neg hleft, if_neg hright, h.resolve_left (by decide)]

/-- Written for different dialects, a header and a payload compile to the same error at the same
line, or to recipes that are the same but for the dialect and the entrypoint. The entrypoints are
the same too if the call has one, or if both dialects look for it in the same place. -/
theorem compile_marked (hleft : Marked header payload dialect text)
    (hright : Marked header payload dialect' text')
    (hcomment : contains "###+".toList header.toList = false)
    (hstar : contains "***/".toList header.toList = false) :
    (compile introducers ⟨text, dialect, source⟩).map
        (List.map fun recipe => { recipe with dialect := dialect', entrypoint := "" }) =
      (compile introducers ⟨text', dialect', source⟩).map
        (List.map fun recipe => { recipe with entrypoint := "" }) ∧
    (NamesEntrypoint header ∨
        dialect.namesEntrypointInHeader = dialect'.namesEntrypointInHeader →
      (compile introducers ⟨text, dialect, source⟩).map
          (List.map fun recipe => { recipe with dialect := dialect' }) =
        compile introducers ⟨text', dialect', source⟩) := by
  rw [compile_eq_markedParts hleft hcomment hstar, compile_eq_markedParts hright hcomment hstar]
  cases hparts : markedParts header payload with
  | error e => exact ⟨rfl, fun _ => rfl⟩
  | ok found =>
    obtain ⟨registration, body, rules⟩ := found
    constructor
    · show Except.ok (List.map _ (List.map _ _)) = Except.ok (List.map _ (List.map _ _))
      rw [List.map_map, List.map_map]
      rfl
    · intro h
      have hset := h.imp_left fun hnames =>
        isSome_entrypoint_of_namesEntrypoint hnames (find_of_markedParts hparts)
      have hentrypoint := @entrypoint_congr _ _ introducers (interiorOf header) _
        hleft.ne_native hright.ne_native hset
      show Except.ok (List.map _ (List.map _ _)) = Except.ok (List.map _ _)
      rw [List.map_map]
      -- Recipes of the same parts differ in the dialect and in what the entrypoint takes from it.
      congr 2
      funext constraint
      show { recipeOf .. with dialect := dialect' } = _
      simp only [recipeOf, headerOf, hentrypoint]

/-- A header with a text over several lines, of which one starts with a comment sign. -/
def noted (arguments : String) : String :=
  "@register(REG, [Greet, 'Part'], preamble='''\n# é\n\n  x\n'''" ++ arguments ++
  ")\n  #\n  greet"

theorem compile_marked_noted : ∃ recipes recipes',
    compile .default ⟨commentedText (noted "") "\n\n echo \n", .shell, "greet"⟩ = .ok recipes ∧
    compile .default ⟨starredText (noted "") "\n\n echo \n", .query, "greet"⟩ = .ok recipes' ∧
    recipes.map (fun recipe => (recipe.constraint, recipe.entrypoint, recipe.body)) =
      [("Greet", "greet", "echo"), ("Part", "greet", "echo")] ∧
    recipes'.map (·.preamble) = ["\n# é\n\n  x\n", "\n# é\n\n  x\n"] ∧
    recipes.map (fun recipe => { recipe with dialect := .query, entrypoint := "" }) =
      recipes'.map (fun recipe => { recipe with entrypoint := "" }) ∧
    (compile .default
        ⟨commentedText (noted ", entrypoint='go'") "\n\n echo \n", .statistical, "greet"⟩).map
        (List.map fun recipe => { recipe with dialect := .query }) =
      compile .default
        ⟨starredText (noted ", entrypoint='go'") "\n\n echo \n", .query, "greet"⟩ := by
  -- Without an entrypoint in the call the two artifacts agree but for their entrypoints.
  have hagree := (@compile_marked (noted "") "\n\n echo \n" "greet" _ _ _ _ .default .shell .query
    (by decide +kernel) (by decide +kernel)).1
  have hshell : (compile .default
      ⟨commentedText (noted "") "\n\n echo \n", .shell, "greet"⟩).toOption.map
        (List.map fun recipe => (recipe.constraint, recipe.entrypoint, recipe.body)) =
      some [("Greet", "greet", "echo"), ("Part", "greet", "echo")] := by
    decide +kernel
  have hquery : (compile .default
      ⟨starredText (noted "") "\n\n echo \n", .query, "greet"⟩).toOption.map
        (List.map (·.preamble)) = some ["\n# é\n\n  x\n", "\n# é\n\n  x\n"] := by
    decide +kernel
  -- The second header names its entrypoint, as the fourth of its arguments.
  have hnames : NamesEntrypoint (noted ", entrypoint='go'") := by
    refine ⟨⟨"register", 1, 10, 76⟩,
      [⟨none, 11, "REG".toList⟩, ⟨none, 16, "[Greet, 'Part']".toList⟩,
        ⟨some "preamble", 42, "'''\n# é\n\n  x\n'''".toList⟩,
        ⟨some "entrypoint", 72, "'go'".toList⟩], ?_, ?_, ?_⟩
    · exact eq_ok_of_toOption (by decide +kernel)
    · exact eq_ok_of_toOption (by decide +kernel)
    · decide +kernel
  have hnamed := (@compile_marked (noted ", entrypoint='go'") "\n\n echo \n" "greet" _ _ _ _
    .default .statistical .query (by decide +kernel) (by decide +kernel)).2 (.inl hnames)
  -- Both artifacts compile, as their bodies and preambles show.
  cases hrecipes : compile .default
      ⟨commentedText (noted "") "\n\n echo \n", .shell, "greet"⟩ with
  | error e =>
    rw [hrecipes] at hshell
    cases hshell
  | ok recipes =>
    cases hrecipes' : compile .default
        ⟨starredText (noted "") "\n\n echo \n", .query, "greet"⟩ with
    | error e =>
      rw [hrecipes'] at hquery
      cases hquery
    | ok recipes' =>
      rw [hrecipes] at hshell hagree
      rw [hrecipes'] at hquery hagree
      exact ⟨recipes, recipes', rfl, rfl, Option.some.inj hshell, Option.some.inj hquery,
        Except.ok.inj hagree, hnamed⟩

end Artifact

end Cookbook
