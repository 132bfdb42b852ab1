import Cookbook.Proofs.Artifact.NativeHeader
import Cookbook.Proofs.Checked.Bodies
import Cookbook.Proofs.Checked.Registrations
import Cookbook.Proofs.Checked.Rules
import Cookbook.Artifact

/-!
# Checked compilation

The compiler of artifacts with every cut checked: the header, the call and its parts, the arguments,
the entries and rules of the map, the lines of the body, the text behind the call for the entrypoint,
and for every error the text in front of it, whose line feeds tell the line. Offsets and counters are
natural numbers of any size.

## Main definitions

* `Checked.compile`: the compiler with checked cuts.

## Main results

* `linesOf_lineAt`: every error that stands in the header has a line.
* `compile_eq_some`: all cuts are sound, for every artifact, so that it always compiles to recipes or
  to an error.
-/

namespace Cookbook.Checked

open Cookbook.Text

variable {text : List Char} {introducers : Introducers} {header : Header} {offset : Nat}

/-! ## Headers -/

/-- The header of a native artifact. -/
def nativeHeader (text : List Char) (introducers : Introducers) : Option (Except Error Header) :=
  let lines := locate 0 (fullLines text)
  let decorators := Header.linesWhere (Header.isDecoratorLine introducers) 1 lines
  let payloads := Header.linesWhere (Header.isPayloadLine introducers) 1 lines
  match decorators, payloads with
  | [(line, start)], [(payloadLine, bodyStart)] =>
    if bodyStart < start then
      some (.error (.ambiguous (.order introducers.payload line payloadLine)))
    else do
      let interior ← cut start bodyStart text
      return .ok ⟨start, bodyStart, bodyStart, interior, line⟩
  | _, _ =>
    some (.error (.ambiguous (.introducers introducers.decorator introducers.payload
      (decorators.map Prod.fst) (payloads.map Prod.fst))))

/-- The header between two markers. -/
def markedHeader (text : List Char) (opening closing : String) (comments : Bool) :
    Option (Except Error Header) :=
  match opening.toList.isPrefixOf? text with
  | none =>
    let found := String.ofList (text.take opening.utf8ByteSize)
    some (.error (.malformed 1 (.noOpeningMarker opening found)))
  | some _ => do
    let start := opening.utf8ByteSize
    match indexOf? closing.toList (← cutFrom start text) with
    | none => return .error (.malformed 1 (.noClosingMarker opening closing))
    | some position =>
      let raw ← cut start (start + position) text
      let stop := start + position + closing.utf8ByteSize
      return .ok ⟨0, stop, stop, if comments then Header.stripComments raw else raw, 1⟩

/-- The header of an artifact. -/
def findHeader (text : List Char) (dialect : Dialect) (introducers : Introducers) :
    Option (Except Error Header) :=
  match dialect.markers? with
  | none => nativeHeader text introducers
  | some (opening, closing) => markedHeader text opening closing dialect.commentsHeader

/-- The artifact's line of a byte offset into the interior; an offset past its end counts as the
end. -/
def lineAt (header : Header) (offset : Nat) : Option Nat := do
  let before ← cutTo (min offset (byteSize header.interior)) header.interior
  return header.interiorLine + lineFeeds before

/-- The payload starts at a boundary of the artifact. -/
def LocatedHeader (text : List Char) : Except Error Header → Prop
  | .ok header => IsBoundary text header.bodyStart
  | .error _ => True

theorem cut_native (h : Header.findNative text introducers = .ok header) :
    cut header.start header.bodyStart text = some header.interior ∧
      IsBoundary text header.bodyStart := by
  obtain ⟨site, hlines, rfl⟩ := Header.exists_site h
  refine ⟨?_, site.isBoundary_bodyStart hlines⟩
  rw [site.eq_append hlines]
  exact cut_append _ _ _

/-- The two introducers are boundaries of lines, and the interior stands between them. -/
theorem nativeHeader_eq (text : List Char) (introducers : Introducers) :
    nativeHeader text introducers = some (Header.findNative text introducers) ∧
      LocatedHeader text (Header.findNative text introducers) := by
  constructor
  · have hcut := @cut_native text introducers
    unfold nativeHeader
    unfold Header.findNative at hcut ⊢
    dsimp only at hcut ⊢
    generalize Header.linesWhere (Header.isDecoratorLine introducers) 1 _ = decorators at hcut ⊢
    generalize Header.linesWhere (Header.isPayloadLine introducers) 1 _ = payloads at hcut ⊢
    -- Only one line of each kind makes a header.
    rcases decorators with _ | ⟨⟨line, start⟩, _ | ⟨second, others⟩⟩
    · rfl
    · rcases payloads with _ | ⟨⟨payloadLine, bodyStart⟩, _ | ⟨second, others⟩⟩
      · rfl
      · dsimp only at hcut ⊢
        split
        · rfl
        · next horder =>
          rw [if_neg horder] at hcut
          rw [(hcut rfl).1]
          rfl
      · rfl
    · rfl
  · cases hfind : Header.findNative text introducers with
    | error e => trivial
    | ok header => exact (cut_native hfind).2

/-- The payload starts behind the closing marker. -/
theorem markedHeader_eq (text : List Char) (opening closing : String) (comments : Bool) :
    markedHeader text opening closing comments =
        some (Header.findMarked text opening closing comments) ∧
      LocatedHeader text (Header.findMarked text opening closing comments) := by
  unfold markedHeader Header.findMarked
  cases hprefix : opening.toList.isPrefixOf? text with
  | none => exact ⟨rfl, trivial⟩
  | some inside =>
    obtain rfl := eq_append_of_isPrefixOf? hprefix
    simp only [← byteSize_toList, cutFrom_append, indexOf?, Option.bind_eq_bind, Option.bind_some]
    cases hbreak : breakOn? closing.toList inside with
    | none => exact ⟨rfl, trivial⟩
    | some found =>
      obtain ⟨raw, behind⟩ := found
      obtain rfl := append_of_breakOn? hbreak
      -- The slice between the markers starts and ends between characters, for the text is the sum
      -- of these parts.
      have hcut := cut_append opening.toList raw (closing.toList ++ behind)
      have htext : opening.toList ++ (raw ++ closing.toList ++ behind) =
          opening.toList ++ raw ++ (closing.toList ++ behind) := by
        simp only [List.append_assoc]
      rw [← htext] at hcut
      simp only [Option.map_some, hcut, Option.bind_some]
      refine ⟨rfl, opening.toList ++ raw ++ closing.toList, behind, ?_, ?_⟩
      · simp only [List.append_assoc]
      · simp only [byteSize_append]

theorem findHeader_eq (text : List Char) (dialect : Dialect) (introducers : Introducers) :
    findHeader text dialect introducers = some (Header.find text dialect introducers) ∧
      LocatedHeader text (Header.find text dialect introducers) := by
  unfold findHeader Header.find
  cases dialect.markers? with
  | none => exact nativeHeader_eq text introducers
  | some markers => exact markedHeader_eq text markers.1 markers.2 _

theorem linesOf_lineAt (header : Header) :
    LinesOf header.interior (lineAt header) header.lineAt := by
  rintro offset ⟨front, back, htext, rfl⟩
  have hle : byteSize front ≤ byteSize header.interior := by
    rw [htext, byteSize_append]
    exact Nat.le_add_right _ _
  rw [lineAt, Header.lineAt, Nat.min_eq_left hle, htext, cutTo_append, takeBytes_byteSize_append]
  rfl

/-! ## Entrypoints -/

/-- The entrypoint that a header names. -/
def headerEntrypoint (interior : List Char) (registration : Registration) : Option String := do
  match Artifact.lastLine? (← cutFrom registration.stop interior) with
  | some line => return String.ofList line
  | none =>
    let call ← cutTo registration.stop interior
    return String.ofList ((Artifact.lastLine? call).getD [])

/-- The entrypoint of a recipe. -/
def entrypoint (dialect : Dialect) (introducers : Introducers) (interior : List Char)
    (registration : Registration) : Option String :=
  match registration.settings.entrypoint with
  | some name => some name
  | none =>
    if dialect = .native then some introducers.payload
    else if dialect.namesEntrypointInHeader then headerEntrypoint interior registration
    else some ""

theorem headerEntrypoint_eq {interior : List Char} {registration : Registration}
    (h : IsBoundary interior registration.stop) :
    headerEntrypoint interior registration =
      some (Artifact.headerEntrypoint interior registration) := by
  rw [headerEntrypoint, cutFrom_eq h, cutTo_eq h, Artifact.headerEntrypoint]
  simp only [Option.bind_eq_bind, Option.bind_some]
  cases Artifact.lastLine? (dropBytes registration.stop interior) <;> rfl

theorem entrypoint_eq {interior : List Char} {registration : Registration}
    (h : IsBoundary interior registration.stop) (dialect : Dialect) (introducers : Introducers) :
    entrypoint dialect introducers interior registration =
      some (Artifact.entrypoint dialect introducers interior registration) := by
  rw [entrypoint, Artifact.entrypoint, headerEntrypoint_eq h]
  cases registration.settings.entrypoint with
  | some name => rfl
  | none =>
    dsimp only
    split
    · rfl
    · split <;> rfl

/-! ## Artifacts -/

/-- The rules that a registration declares. -/
def declaredRules (header : Header) (registration : Registration) :
    Option (Except Error (List Rule)) :=
  match registration.settings.args with
  | some map => compileRules (lineAt header) map
  | none => some (.ok [])

/-- The recipes of an artifact. There is no answer if a cut is not sound. -/
def compile (introducers : Introducers) (artifact : Artifact) :
    Option (Except Error (List Recipe)) :=
  let text := artifact.text.toList
  chain (findHeader text artifact.dialect introducers) fun header =>
    chain (parse (lineAt header) header.interior) fun registration =>
      chain (body text header artifact.dialect) fun body =>
        chain (declaredRules header registration) fun rules => do
          let entrypoint ← entrypoint artifact.dialect introducers header.interior registration
          return .ok (registration.constraints.map fun constraint =>
            { Artifact.recipeOf introducers artifact header registration body rules constraint with
              entrypoint })

theorem declaredRules_eq {registration : Registration} (h : registration.StandsIn header.interior) :
    declaredRules header registration = some (Artifact.declaredRules header registration) := by
  unfold declaredRules Artifact.declaredRules
  cases hargs : registration.settings.args with
  | none => rfl
  | some map => exact compileRules_eq (linesOf_lineAt header) (h.1 map hargs)

/-- All cuts of the compiler are sound, whatever the artifact and the names that introduce a native
recipe: with every cut checked it has the same answer, recipes or an error. -/
theorem compile_eq_some (introducers : Introducers) (artifact : Artifact) :
    compile introducers artifact = some (Artifact.compile introducers artifact) := by
  obtain ⟨hheader, hlocated⟩ := findHeader_eq artifact.text.toList artifact.dialect introducers
  -- The header is cut at boundaries, so that everything behind it is read from texts, and what is
  -- read stands where its offsets say.
  refine chain_eq hheader fun header hfound => ?_
  rw [hfound] at hlocated
  obtain ⟨hparse, hstands⟩ := parse_eq (linesOf_lineAt header)
  refine chain_eq hparse fun registration hregistration => ?_
  have hregistration := hstands registration hregistration
  refine chain_eq (body_eq hlocated artifact.dialect) fun body _ => ?_
  refine chain_eq (declaredRules_eq hregistration) fun rules _ => ?_
  rw [entrypoint_eq hregistration.2]
  rfl

end Cookbook.Checked
