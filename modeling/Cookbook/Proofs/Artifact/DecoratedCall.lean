import Cookbook.Proofs.Artifact.NativeHeader
import Cookbook.Proofs.Artifact.Soundness
import Cookbook.Proofs.Registration.CallSite

/-!
# The call on the decorator line

The header of a native artifact starts with the line that decorates the recipe, and the registration
is read from the first line of the header that begins with a call. The two searches have different
notions of a name: the first one accepts the decorator's name whatever its characters, the second one
accepts identifier characters only.

## Main definitions

* `IsDecorated`, `IsUndecorated`: whether a registration is read from the decorator line or from a
  later one.

## Main results

* `beginsCall_decorator`: whether a decorator line begins with a call depends on the name alone.
* `decorated_iff`: the registration of a compiled artifact is read from the decorator line exactly
  if the name is such that a call is seen there, and from a later line otherwise.
-/

namespace Cookbook

open Cookbook.Text

variable {gap line header : List Char} {start : Nat} {lines : List (List Char)}
  {introducers : Introducers}

/-! ## Names in front of a parenthesis -/

/-- Of a name and what stands behind it up to a parenthesis, the identifier characters at the start
belong to the name. -/
theorem takeWhile_decorator (name : List Char) (hgap : ∀ c ∈ gap, isBlank c = true)
    (more : List Char) :
    (name ++ (gap ++ '(' :: more)).takeWhile isIdentChar = name.takeWhile isIdentChar ∧
      (name ++ (gap ++ '(' :: more)).dropWhile isIdentChar =
        name.dropWhile isIdentChar ++ (gap ++ '(' :: more) := by
  induction name with
  | nil =>
    have hboundary := isIdentChar_head?_gap hgap more
    exact @takeWhile_append_of_boundary (gap ++ '(' :: more) isIdentChar [] (by simp) hboundary
  | cons c name ih =>
    rw [List.cons_append, List.takeWhile_cons, List.takeWhile_cons, List.dropWhile_cons,
      List.dropWhile_cons]
    cases isIdentChar c with
    | true => simp [ih]
    | false => simp

theorem head?_trimStart_decorator (name : List Char) (hgap : ∀ c ∈ gap, isBlank c = true)
    (more : List Char) :
    (trimStart (name ++ (gap ++ '(' :: more))).head? = ((trimStart name).head?).or (some '(') := by
  induction name with
  | nil =>
    rw [List.nil_append, trimStart_append_cons hgap (by decide)]
    rfl
  | cons c name ih =>
    rw [List.cons_append, trimStart, trimStart, List.dropWhile_cons, List.dropWhile_cons]
    split
    · exact ih
    · rfl

/-- Whether a call is seen depends neither on the blanks in front of the parenthesis nor on what
stands behind it. -/
theorem startsCall_decorator (name : List Char) (hgap : ∀ c ∈ gap, isBlank c = true)
    (more : List Char) :
    Call.startsCall ('@' :: (name ++ (gap ++ '(' :: more))) =
      Call.startsCall ('@' :: (name ++ ['('])) := by
  have hnone : ∀ c ∈ ([] : List Char), isBlank c = true := fun _ h => by cases h
  obtain ⟨htake, hdrop⟩ := takeWhile_decorator name hgap more
  have hhead := head?_trimStart_decorator (name.dropWhile isIdentChar) hgap more
  -- The shortest such text has no blanks and nothing behind the parenthesis.
  obtain ⟨htake', hdrop'⟩ := takeWhile_decorator name hnone []
  have hhead' := head?_trimStart_decorator (name.dropWhile isIdentChar) hnone []
  rw [List.nil_append] at htake' hdrop' hhead'
  simp only [Call.startsCall, htake, hdrop, hhead, htake', hdrop', hhead']

/-- A decorator line begins with a call exactly if the decorator's name and a parenthesis do. -/
theorem beginsCall_decorator (h : Header.isDecoratorLine introducers line = true) :
    BeginsCall line ↔ BeginsCall ('@' :: (introducers.decorator.toList ++ ['('])) := by
  obtain ⟨blanks, gap, more, rfl, hblanks, hgap⟩ := Header.isDecoratorLine_iff.mp h
  rw [beginsCall_iff, beginsCall_iff, trimStart_append_cons hblanks (by decide),
    startsCall_decorator _ hgap more]
  rfl

/-! ## Where the call is found -/

theorem le_of_mem_locate {found : Nat × List Char} (h : found ∈ locate start lines) :
    start ≤ found.1 := by
  induction lines generalizing start with
  | nil => cases h
  | cons line lines ih =>
    rcases List.mem_cons.mp h with rfl | h
    · exact Nat.le_refl _
    · exact Nat.le_trans (Nat.le_add_right _ _) (ih h)

/-- The call is found on the first line if that line begins with one, and below it otherwise. -/
theorem start?_firstLine (hlines : fullLines header = line :: lines)
    (h : Call.start? header = some start) :
    (BeginsCall line → start = offsetOf line (trimStart line)) ∧
      (¬BeginsCall line → byteSize line ≤ start) := by
  rw [Call.start?, hlines, locate, List.findSome?_cons] at h
  rw [beginsCall_iff]
  constructor
  · intro hcall
    simp only [hcall, if_true, Nat.zero_add] at h
    exact (Option.some.inj h).symm
  · intro hcall
    simp only [hcall, Nat.zero_add] at h
    obtain ⟨found, hfound, hstart⟩ := List.exists_of_findSome?_eq_some h
    have hle := le_of_mem_locate hfound
    split at hstart
    · have := Option.some.inj hstart
      omega
    · cases hstart

theorem call_of_find {registration : Registration}
    (h : Registration.find header = .ok registration) :
    Call.start? header = some registration.start ∧ registration.name =
      String.ofList ((dropBytes (registration.start + 1) header).takeWhile isIdentChar) := by
  obtain ⟨call, hcall, h⟩ := bind_eq_ok_iff.mp h
  obtain ⟨arguments, -, h⟩ := bind_eq_ok_iff.mp h
  obtain ⟨settings, -, h⟩ := bind_eq_ok_iff.mp h
  -- The name and the place of a registration are those of its call.
  have hregistration : registration.name = call.name ∧ registration.start = call.start := by
    split at h
    · split at h
      · cases h
        exact ⟨rfl, rfl⟩
      · cases h
    · cases h
  rw [hregistration.1, hregistration.2]
  unfold Call.find at hcall
  split at hcall
  · cases hcall
  · next start hstart =>
    dsimp only at hcall
    split at hcall
    · cases hcall
    · split at hcall
      · cases hcall
      · cases hcall
        exact ⟨hstart, rfl⟩

namespace Artifact

/-! ## The registered call -/

/-- The registration is read from the at sign of the decorator line. -/
def IsDecorated (introducers : Introducers) (header : Header) (registration : Registration) : Prop :=
  ∃ line others, fullLines header.interior = line :: others ∧
    Header.isDecoratorLine introducers line = true ∧
    registration.start = offsetOf line (trimStart line)

/-- The registration is read from a line below the decorator line. -/
def IsUndecorated (introducers : Introducers) (header : Header) (registration : Registration) :
    Prop :=
  ∃ line others, fullLines header.interior = line :: others ∧
    Header.isDecoratorLine introducers line = true ∧ byteSize line ≤ registration.start

/-- The header and the registration that the recipes of an artifact are made from. -/
def MadeFrom (introducers : Introducers) (artifact : Artifact) (header : Header)
    (registration : Registration) (recipes : List Recipe) : Prop :=
  Header.find artifact.text.toList artifact.dialect introducers = .ok header ∧
    Registration.find header.interior = .ok registration ∧
    ∃ body rules, declaredRules header registration = .ok rules ∧
      recipes = registration.constraints.map
        (recipeOf introducers artifact header registration body rules)

/-- The first line of a native header is the decorator line. -/
theorem exists_fullLines_interior {text : List Char} {header : Header}
    (h : Header.findNative text introducers = .ok header) :
    ∃ line others, fullLines header.interior = line :: others ∧
      Header.isDecoratorLine introducers line = true := by
  obtain ⟨site, hsite, rfl⟩ := Header.exists_site h
  refine ⟨site.decorated, site.between, fullLines_flatten ?_, site.isDecorator⟩
  have hlines : fullLines text =
      (site.above ++ site.decorated :: site.between) ++ site.payload :: site.below := by
    simp [hsite, Header.NativeSite.lines]
  -- The payload line stands below these lines, so line feeds end them.
  exact fun line hline => isLine_of_fullLines hlines line (List.mem_append_right _ hline)

/-- The at sign of a decorator line stands in it. -/
theorem offsetOf_lt_byteSize (h : Header.isDecoratorLine introducers line = true) :
    offsetOf line (trimStart line) < byteSize line := by
  obtain ⟨blanks, gap, more, rfl, hblanks, -⟩ := Header.isDecoratorLine_iff.mp h
  have hsign := '@'.utf8Size_pos
  rw [trimStart_append_cons hblanks (by decide), offsetOf_append, byteSize_append, byteSize_cons]
  omega

theorem beginsCall_of_isWord {name : List Char} (h : IsWord name) :
    BeginsCall ('@' :: (name ++ ['('])) :=
  ⟨[], name, [], [], rfl, by simp, h, by simp⟩

/-- A call that is read from the at sign of a decorator line has the decorator's name, if that is
a word. -/
theorem takeWhile_dropBytes_decorator {others : List (List Char)}
    (hlines : fullLines header = line :: others)
    (hline : Header.isDecoratorLine introducers line = true)
    (hword : IsWord introducers.decorator.toList) :
    (dropBytes (offsetOf line (trimStart line) + 1) header).takeWhile isIdentChar =
      introducers.decorator.toList := by
  obtain ⟨blanks, gap, more, rfl, hblanks, hgap⟩ := Header.isDecoratorLine_iff.mp hline
  -- The name starts behind the blanks and the at sign.
  have htext : header = (blanks ++ ['@']) ++
      (introducers.decorator.toList ++ (gap ++ '(' :: (more ++ others.flatten))) := by
    rw [← flatten_fullLines header, hlines]
    simp
  have hsize : byteSize blanks + 1 = byteSize (blanks ++ ['@']) := by
    rw [byteSize_append]
    rfl
  rw [trimStart_append_cons hblanks (by decide), offsetOf_append, hsize, htext,
    dropBytes_byteSize_append]
  exact (takeWhile_word hword hgap _).1

/-- The registration of a native artifact that compiles is read from the decorator line exactly if
the decorator's name and a parenthesis begin a call, and otherwise from a line below. If the name is
a word, it is read from the decorator line, and the call has that name. -/
theorem decorated_iff {artifact : Artifact} {recipes : List Recipe}
    (hnative : artifact.dialect = .native) (h : compile introducers artifact = .ok recipes) :
    ∃ header registration, MadeFrom introducers artifact header registration recipes ∧
      (IsDecorated introducers header registration ↔
        BeginsCall ('@' :: (introducers.decorator.toList ++ ['(']))) ∧
      (¬BeginsCall ('@' :: (introducers.decorator.toList ++ ['('])) →
        IsUndecorated introducers header registration) ∧
      (IsWord introducers.decorator.toList →
        IsDecorated introducers header registration ∧
          registration.name = introducers.decorator) := by
  obtain ⟨header, registration, body, rules, hheader, hfind, -, hrules, rfl⟩ := compile_inv h
  rw [hnative] at hheader
  obtain ⟨line, others, hlines, hline⟩ := exists_fullLines_interior hheader
  obtain ⟨hstart, hname⟩ := call_of_find hfind
  obtain ⟨hfirst, hlater⟩ := start?_firstLine hlines hstart
  rw [beginsCall_decorator hline] at hfirst hlater
  have hdecorated (hcall : BeginsCall ('@' :: (introducers.decorator.toList ++ ['(']))) :
      IsDecorated introducers header registration :=
    ⟨line, others, hlines, hline, hfirst hcall⟩
  refine ⟨header, registration, ⟨by rwa [hnative], hfind, body, rules, hrules, rfl⟩,
    ⟨?_, hdecorated⟩, fun hcall => ⟨line, others, hlines, hline, hlater hcall⟩, fun hword => ?_⟩
  · rintro ⟨line', others', hlines', -, hat⟩
    rw [hlines] at hlines'
    obtain ⟨rfl, -⟩ := List.cons.inj hlines'
    -- A call on a later line would start behind the decorator line.
    refine Decidable.byContradiction fun hcall => ?_
    have hle := hlater hcall
    have hlt := offsetOf_lt_byteSize hline
    omega
  · have hcall := beginsCall_of_isWord hword
    refine ⟨hdecorated hcall, ?_⟩
    rw [hname, hfirst hcall, takeWhile_dropBytes_decorator hlines hline hword,
      String.ofList_toList]

/-- A recipe with a decorator between the one that registers it and its function. -/
def stacked (decorator : String) : Artifact where
  text := "@" ++ decorator ++ "(REG, A)\n@other(REG, B)\ndef recipe():\n    pass\n"
  dialect := .native
  source := "stacked.py"

theorem decorated_stacked : ∃ recipes header registration,
    compile .default (stacked "register") = .ok recipes ∧ recipes.map (·.constraint) = ["A"] ∧
      MadeFrom .default (stacked "register") header registration recipes ∧
      IsDecorated .default header registration ∧ registration.name = "register" := by
  have hrun : (compile .default (stacked "register")).toOption.map
      (fun recipes => recipes.map (·.constraint)) = some ["A"] := by
    decide +kernel
  cases hcompile : compile .default (stacked "register") with
  | error e =>
    rw [hcompile] at hrun
    cases hrun
  | ok recipes =>
    rw [hcompile] at hrun
    obtain ⟨header, registration, hmade, -, -, hword⟩ := decorated_iff rfl hcompile
    have hregister : IsWord "register".toList :=
      ⟨by decide, List.all_eq_true.mp (by decide)⟩
    exact ⟨recipes, header, registration, rfl, Option.some.inj hrun, hmade, hword hregister⟩

/-- A decorator whose name has a dot in it. -/
def dotted : Introducers := ⟨"larder.register", "recipe"⟩

/-- No call is seen on the line of a dotted decorator, so that the next decorator registers the
recipe. -/
theorem undecorated_dotted :
    (compile dotted (stacked "larder.register")).toOption.map
      (fun recipes => recipes.map (·.constraint)) = some ["B"] ∧
    ∀ header registration recipes,
      MadeFrom dotted (stacked "larder.register") header registration recipes →
        ¬IsDecorated dotted header registration := by
  refine ⟨by decide +kernel, ?_⟩
  rintro header registration recipes ⟨hheader, hfind, -⟩ ⟨line, others, hlines, -, hat⟩
  -- The header is the one that is found here, and its call starts on the second line.
  have hfound : Header.find (stacked "larder.register").text.toList .native dotted =
      .ok ⟨0, 40, 40, "@larder.register(REG, A)\n@other(REG, B)\n".toList, 1⟩ :=
    eq_ok_of_toOption (by decide +kernel)
  obtain rfl := Except.ok.inj (hheader.symm.trans hfound)
  have hstart : Call.start? "@larder.register(REG, A)\n@other(REG, B)\n".toList = some 25 := by
    decide +kernel
  have hfull : fullLines "@larder.register(REG, A)\n@other(REG, B)\n".toList =
      ["@larder.register(REG, A)\n".toList, "@other(REG, B)\n".toList] := by
    decide +kernel
  obtain ⟨rfl, -⟩ := List.cons.inj (hfull.symm.trans hlines)
  rw [← Option.some.inj (hstart.symm.trans (call_of_find hfind).1)] at hat
  revert hat
  decide +kernel

end Artifact

end Cookbook
