import Cookbook.Artifact
import Cookbook.Proofs.Artifact.NativeHeader
import Cookbook.Proofs.Except

/-!
# The lines of errors

Text in front of an artifact moves its errors down. Every stage of a compilation takes the lines of
its errors from `Header.lineAt`, except the search for the end of a signature, which reports the
first line whatever stands in front.

## Main definitions

* `Error.moved`: an error some lines further down.
* `Error.isSignatureFault`: the errors that do not move.

## Main results

* `compile_behind`: what an artifact with complete lines in front of it compiles to.
* `compile_moved_iff`: its error is the one of the artifact, moved down by these lines, exactly if
  there are none or if it is no fault of the signature.
-/

namespace Cookbook

open Cookbook.Text

/-! ## Errors that move -/

/-- A fault of the signature of a payload function. -/
def Malformation.ofSignature : Malformation → Bool
  | malformedSignature _ => true
  | _ => false

namespace Error

/-- The error, reported `n` lines further down. -/
def moved (n : Nat) : Error → Error
  | malformed line what => malformed (line + n) what
  | unsupported parameter construct line => unsupported parameter construct (line + n)
  | e => e

/-- An error that names a line. -/
def hasLine : Error → Bool
  | malformed .. | unsupported .. => true
  | _ => false

/-- A fault of the signature of a payload function. -/
def isSignatureFault : Error → Bool
  | malformed _ what => what.ofSignature
  | _ => false

/-- The error as it is reported behind `n` lines. -/
def behind (n : Nat) (e : Error) : Error :=
  if e.isSignatureFault then e else e.moved n

end Error

variable {lineOf : Nat → Nat} {n offset : Nat} {header : List Char} {what : Malformation} {e : Error}

/-! ## Registrations -/

theorem Registration.parse_moved (lineOf : Nat → Nat) (n : Nat) (header : List Char) :
    Registration.parse (fun offset => lineOf offset + n) header =
      (Registration.parse lineOf header).mapError (Error.moved n) := by
  unfold Registration.parse
  split <;> rfl

theorem Call.not_ofSignature_of_find (h : Call.find header = .error (offset, what)) :
    what.ofSignature = false := by
  unfold Call.find at h
  dsimp only at h
  split at h
  · cases h
    rfl
  · split at h
    · cases h
      rfl
    · split at h
      · cases h
        rfl
      · cases h

theorem Call.not_ofSignature_of_arguments {call : Call}
    (h : call.arguments header = .error (offset, what)) : what.ofSignature = false := by
  unfold Call.arguments at h
  split at h
  · cases h
    rfl
  · cases h

theorem Settings.not_ofSignature_of_set {settings : Settings} {label : String} {value : Segment}
    (h : settings.set label value = .error what) : what.ofSignature = false := by
  unfold Settings.set at h
  split at h
  -- Each label that has a meaning either is set or has an error of its own.
  all_goals try split at h
  all_goals cases h
  all_goals rfl

theorem Settings.not_ofSignature_of_read {seen : List String} {settings : Settings}
    {arguments : List (Argument Segment)}
    (h : settings.read seen arguments = .error (offset, what)) : what.ofSignature = false := by
  fun_induction Settings.read seen settings arguments
  case case1 => cases h
  case case2 ih => exact ih h
  case case3 =>
    cases h
    rfl
  case case4 ih => exact ih h
  case case5 hset =>
    cases h
    exact not_ofSignature_of_set hset

/-- A registration call has nothing to do with the signature of the payload function. -/
theorem Registration.not_isSignatureFault_of_parse
    (h : Registration.parse lineOf header = .error e) : e.isSignatureFault = false := by
  unfold Registration.parse at h
  split at h
  · cases h
  · next offset what hfind =>
    cases h
    show what.ofSignature = false
    unfold Registration.find at hfind
    -- The steps of the reader, each of which has its own errors.
    rcases bind_eq_error_iff.mp hfind with h | ⟨call, -, hfind⟩
    · exact Call.not_ofSignature_of_find h
    rcases bind_eq_error_iff.mp hfind with h | ⟨arguments, -, hfind⟩
    · exact Call.not_ofSignature_of_arguments h
    rcases bind_eq_error_iff.mp hfind with h | ⟨settings, -, hfind⟩
    · exact Settings.not_ofSignature_of_read h
    split at hfind
    · split at hfind
      · cases hfind
      · cases hfind
        rfl
    · cases hfind
      rfl

/-! ## Rules -/

theorem Rule.compile_moved (parameter : String) (text : List Char) (lineOf : Nat → Nat) (n : Nat) :
    Rule.compile parameter text (fun offset => lineOf offset + n) =
      (Rule.compile parameter text lineOf).mapError (Error.moved n) := by
  unfold Rule.compile
  dsimp only
  split
  · split
    · split <;> rfl
    · rfl
  · rfl

theorem rulesOfEntries_moved (lineOf : Nat → Nat) (n base : Nat) (earlier : List String)
    (entries : List Entry) :
    rulesOfEntries (fun offset => lineOf offset + n) base earlier entries =
      (rulesOfEntries lineOf base earlier entries).mapError (Error.moved n) := by
  induction entries generalizing earlier with
  | nil => rfl
  | cons entry entries ih =>
    rw [rulesOfEntries, rulesOfEntries]
    split
    · rfl
    · rw [mapError_bind]
      dsimp only
      rw [Rule.compile_moved _ _ fun offset => lineOf (base + entry.value.offset + offset)]
      congr 1
      funext rule
      rw [ih, mapError_bind]
      rfl

theorem compileRules_moved (lineOf : Nat → Nat) (n : Nat) (map : Segment) :
    compileRules (fun offset => lineOf offset + n) map =
      (compileRules lineOf map).mapError (Error.moved n) := by
  unfold compileRules
  split
  · rfl
  · exact rulesOfEntries_moved lineOf n map.offset [] _

theorem Rule.not_isSignatureFault_of_compile {parameter : String} {text : List Char}
    (h : Rule.compile parameter text lineOf = .error e) : e.isSignatureFault = false := by
  unfold Rule.compile at h
  dsimp only at h
  split at h
  · split at h
    · split at h <;> cases h
      rfl
    · cases h
      rfl
  · cases h
    rfl

theorem not_isSignatureFault_of_rulesOfEntries {base : Nat} {earlier : List String}
    {entries : List Entry} (h : rulesOfEntries lineOf base earlier entries = .error e) :
    e.isSignatureFault = false := by
  induction entries generalizing earlier with
  | nil => cases h
  | cons entry entries ih =>
    rw [rulesOfEntries] at h
    split at h
    · cases h
      rfl
    · rcases bind_eq_error_iff.mp h with h | ⟨rule, -, h⟩
      · exact Rule.not_isSignatureFault_of_compile h
      · rcases bind_eq_error_iff.mp h with h | ⟨rules, -, h⟩
        · exact ih h
        · cases h

theorem not_isSignatureFault_of_compileRules {map : Segment}
    (h : compileRules lineOf map = .error e) : e.isSignatureFault = false := by
  unfold compileRules at h
  split at h
  · cases h
    rfl
  · exact not_isSignatureFault_of_rulesOfEntries h

/-! ## Artifacts behind other lines -/

namespace Header.NativeSite

variable {introducers : Introducers} {site : NativeSite introducers} {before : List Char}

/-- The lines of an artifact with others in front of them. -/
def behind (site : NativeSite introducers) (before : List (List Char))
    (hforeign : ∀ line ∈ before, IsForeign introducers line) : NativeSite introducers where
  above := before ++ site.above
  decorated := site.decorated
  between := site.between
  payload := site.payload
  below := site.below
  isDecorator := site.isDecorator
  isPayload := site.isPayload
  isForeign := by
    intro line hline
    rw [List.append_assoc, List.append_assoc, List.mem_append] at hline
    rcases hline with hline | hline
    · exact hforeign line hline
    · exact site.isForeign line (by rwa [List.append_assoc])

theorem bodyStart_behind (hforeign : ∀ line ∈ fullLines before, IsForeign introducers line) :
    (site.behind (fullLines before) hforeign).header.bodyStart =
      byteSize before + site.header.bodyStart := by
  show byteSize (fullLines before ++ site.above).flatten + byteSize site.interior = _
  rw [List.flatten_append, flatten_fullLines, byteSize_append, Nat.add_assoc]
  rfl

theorem lineAt_behind (hforeign : ∀ line ∈ fullLines before, IsForeign introducers line) :
    (site.behind (fullLines before) hforeign).header.lineAt =
      fun offset => site.header.lineAt offset + (fullLines before).length := by
  funext offset
  show (fullLines before ++ site.above).length + 1 + lineFeeds (takeBytes offset site.interior) =
    site.above.length + 1 + lineFeeds (takeBytes offset site.interior) + _
  rw [List.length_append]
  omega

end Header.NativeSite

namespace Artifact

open Header

variable {introducers : Introducers} {artifact : Artifact} {before : String} {header : Header}

theorem declaredRules_moved {other : Header}
    (h : other.lineAt = fun offset => header.lineAt offset + n) (registration : Registration) :
    declaredRules other registration =
      (declaredRules header registration).mapError (Error.moved n) := by
  unfold declaredRules
  rw [h]
  split
  · exact compileRules_moved header.lineAt n _
  · rfl

theorem not_isSignatureFault_of_declaredRules {registration : Registration}
    (h : declaredRules header registration = .error e) : e.isSignatureFault = false := by
  unfold declaredRules at h
  split at h
  · exact not_isSignatureFault_of_compileRules h
  · cases h

/-- The errors of a native body name no line, or the first one. -/
theorem behind_of_findBody {text : List Char} (h : Body.find text header .native = .error e) :
    e.behind n = e := by
  -- Every error is one about the signature or the block, and none of them is given a line of the
  -- text.
  rcases bind_eq_error_iff.mp h with h | ⟨body, -, h⟩
  · unfold Body.block at h
    split at h
    · cases h
      rfl
    · split at h
      · cases h
        rfl
      · dsimp only at h
        split at h
        · cases h
        · split at h
          · cases h
            rfl
          · cases h
  · dsimp only at h
    split at h
    · cases h
      rfl
    · cases h

/-- A compilation whose header is found. -/
theorem compile_of_findHeader
    (h : Header.find artifact.text.toList artifact.dialect introducers = .ok header) :
    compile introducers artifact = do
      let registration ← Registration.parse header.lineAt header.interior
      let body ← Body.find artifact.text.toList header artifact.dialect
      let rules ← declaredRules header registration
      return registration.constraints.map
        (recipeOf introducers artifact header registration body rules) := by
  unfold compile
  dsimp only
  rw [h]
  rfl

/-- With complete lines in front that introduce nothing, a native artifact compiles to the same
recipes, and its errors move down unless they are faults of the signature. -/
theorem compile_behind (hnative : artifact.dialect = .native) (hlines : IsLines before.toList)
    (hforeign : ∀ line ∈ fullLines before.toList, IsForeign introducers line)
    (hheader : Header.findNative artifact.text.toList introducers = .ok header) :
    compile introducers { artifact with text := before ++ artifact.text } =
      (compile introducers artifact).mapError (Error.behind (fullLines before.toList).length) := by
  obtain ⟨site, hsite, rfl⟩ := exists_site hheader
  let n := (fullLines before.toList).length
  let other := site.behind (fullLines before.toList) hforeign
  have hother : findNative (before ++ artifact.text).toList introducers = .ok other.header := by
    refine other.findNative_eq ?_
    rw [String.toList_append, fullLines_append hlines, hsite]
    simp [other, NativeSite.lines, NativeSite.behind]
  have hlineAt : other.header.lineAt = fun offset => site.header.lineAt offset + n :=
    NativeSite.lineAt_behind hforeign
  have hregistration : Registration.parse other.header.lineAt site.interior =
      (Registration.parse site.header.lineAt site.interior).mapError (Error.behind n) := by
    rw [hlineAt, Registration.parse_moved]
    refine mapError_congr fun e he => ?_
    rw [Error.behind, Registration.not_isSignatureFault_of_parse he, if_neg Bool.false_ne_true]
  have hrules : ∀ registration, declaredRules other.header registration =
      (declaredRules site.header registration).mapError (Error.behind n) := by
    intro registration
    rw [declaredRules_moved hlineAt]
    refine mapError_congr fun e he => ?_
    rw [Error.behind, not_isSignatureFault_of_declaredRules he, if_neg Bool.false_ne_true]
  -- The body is the same text behind a longer header, and the lines of its errors do not move.
  have hbody : Body.find (before ++ artifact.text).toList other.header .native =
      (Body.find artifact.text.toList site.header .native).mapError (Error.behind n) := by
    rw [mapError_eq_self fun e he => behind_of_findBody he]
    unfold Body.find
    rw [NativeSite.bodyStart_behind hforeign, String.toList_append, dropBytes_add]
  have hcompile : compile introducers { artifact with text := before ++ artifact.text } = do
      let registration ← Registration.parse other.header.lineAt other.header.interior
      let body ← Body.find (before ++ artifact.text).toList other.header artifact.dialect
      let rules ← declaredRules other.header registration
      return registration.constraints.map
        (recipeOf introducers artifact other.header registration body rules) :=
    compile_of_findHeader (by rw [hnative]; exact hother)
  rw [hcompile, compile_of_findHeader (by rw [hnative]; exact hheader)]
  show (Registration.parse other.header.lineAt site.interior >>= _) = _
  rw [hregistration, hnative, hbody]
  simp only [mapError_bind, hrules]
  rfl

/-- An error that names a line comes from behind the header. -/
theorem exists_header_of_hasLine (hnative : artifact.dialect = .native)
    (herror : compile introducers artifact = .error e) (hline : e.hasLine = true) :
    ∃ header, Header.findNative artifact.text.toList introducers = .ok header := by
  cases hheader : Header.findNative artifact.text.toList introducers with
  | ok header => exact ⟨header, rfl⟩
  | error e' =>
    exfalso
    have hcompile : compile introducers artifact = .error e' := by
      unfold compile
      dsimp only
      rw [hnative, find_native, hheader]
      rfl
    obtain rfl : e = e' := Except.error.inj (herror.symm.trans hcompile)
    -- The search for a native header reports nothing but ambiguities.
    unfold findNative at hheader
    dsimp only at hheader
    split at hheader
    · split at hheader
      · cases hheader
        cases hline
      · cases hheader
    · cases hheader
      cases hline

theorem moved_eq_self_iff (hline : e.hasLine = true) : e.moved n = e ↔ n = 0 := by
  cases e with
  | malformed line what => simp [Error.moved]
  | unsupported parameter construct line => simp [Error.moved]
  | _ => cases hline

/-- With complete lines in front that introduce nothing, the error of a native artifact moves down
by these lines exactly if there are none or if it is no fault of the signature. A fault of the
signature stays where it is. -/
theorem compile_moved_iff (hnative : artifact.dialect = .native) (hlines : IsLines before.toList)
    (hforeign : ∀ line ∈ fullLines before.toList, IsForeign introducers line)
    (herror : compile introducers artifact = .error e) (hline : e.hasLine = true) :
    (compile introducers { artifact with text := before ++ artifact.text } =
        .error (e.moved (fullLines before.toList).length) ↔
      before = "" ∨ e.isSignatureFault = false) ∧
    (e.isSignatureFault = true →
      compile introducers { artifact with text := before ++ artifact.text } = .error e) := by
  obtain ⟨header, hheader⟩ := exists_header_of_hasLine hnative herror hline
  have hbehind : compile introducers { artifact with text := before ++ artifact.text } =
      .error (e.behind (fullLines before.toList).length) := by
    rw [compile_behind hnative hlines hforeign hheader, herror]
    rfl
  rw [hbehind, Error.behind]
  -- An error of the signature keeps its line, so it is the moved one only if there are no lines in
  -- front.
  cases hfault : e.isSignatureFault with
  | false => simp
  | true =>
    refine ⟨?_, fun _ => rfl⟩
    rw [if_pos rfl, Except.error.injEq, or_iff_left (by simp), eq_comm, moved_eq_self_iff hline,
      List.length_eq_zero_iff, fullLines_eq_nil_iff, String.toList_eq_nil_iff]

/-- A recipe with a rule that is not supported. -/
def unsupported : Artifact where
  text := "@register(REG, A, args=\x7b\n  'n': lambda t: len(t.rows),\n\x7d)\ndef recipe(n):\n    run()\n"
  dialect := .native
  source := "count.py"

theorem compile_moved_unsupported :
    compile .default unsupported = .error (.unsupported "n" (.functionCall "len") 2) ∧
    compile .default { unsupported with text := "import os\n# é\n" ++ unsupported.text } =
      .error (.unsupported "n" (.functionCall "len") 4) := by
  have hrun : compile .default unsupported = .error (.unsupported "n" (.functionCall "len") 2) :=
    eq_error_of_errorOf? (by decide +kernel)
  have hforeign : ∀ line ∈ fullLines "import os\n# é\n".toList, IsForeign .default line := by
    decide +kernel
  exact ⟨hrun, (compile_moved_iff rfl (by decide) hforeign hrun rfl).1.mpr (.inr rfl)⟩

/-- A recipe whose signature has no colon. -/
def unsigned : Artifact where
  text := "@register(REG, A)\ndef recipe(x)\n    pass\n"
  dialect := .native
  source := "unsigned.py"

/-- A signature without colon is reported on the first line, with a line in front as without. -/
theorem compile_unmoved_unsigned :
    compile .default unsigned = .error (.malformed 1 (.malformedSignature .noColon)) ∧
    (∀ line ∈ fullLines "import os\n".toList, IsForeign .default line) ∧
    compile .default { unsigned with text := "import os\n" ++ unsigned.text } =
      .error (.malformed 1 (.malformedSignature .noColon)) ∧
    compile .default { unsigned with text := "import os\n" ++ unsigned.text } ≠
      .error (Error.moved 1 (.malformed 1 (.malformedSignature .noColon))) := by
  have hrun : compile .default { unsigned with text := "import os\n" ++ unsigned.text } =
      .error (.malformed 1 (.malformedSignature .noColon)) :=
    eq_error_of_errorOf? (by decide +kernel)
  refine ⟨eq_error_of_errorOf? (by decide +kernel), by decide +kernel, hrun, ?_⟩
  rw [hrun]
  simp [Error.moved]

end Artifact

end Cookbook
