import Cookbook.Proofs.Checked.Values
import Cookbook.Proofs.Rule.Suffixes

/-!
# Checked items

The arguments of a call and the entries of a map are split by readers that only know what they have
not read yet. Offsets are differences of sizes, commas are cut off as one byte, and the text of a
rule is cut out of the map.

## Main definitions

* `Segment.StandsIn`: a part of a text that stands at its offset.

## Main results

* `splitArguments_eq`, `located_splitArguments`: all cuts of the reader of arguments are sound, and
  what it returns stands in the text, as does the place of an error.
* `splitEntries_eq`: the same of the reader of entries.
-/

namespace Cookbook

open Cookbook.Text

variable {text input rest start value : List Char} {fuel offset : Nat}

/-- The part stands in the text, at its offset. -/
def Segment.StandsIn (segment : Segment) (text : List Char) : Prop :=
  ∃ front back, text = front ++ segment.text ++ back ∧ segment.offset = byteSize front

/-- The key starts at its offset, and the text of the rule stands at its own. -/
structure Entry.StandsIn (entry : Entry) (text : List Char) : Prop where
  key : IsBoundary text entry.keyOffset
  value : entry.value.StandsIn text

/-- The arguments stand in the text, or the error does. -/
def LocatedArguments (text : List Char) : Except Nat (List (Argument Segment)) → Prop
  | .ok found => ∀ a ∈ found, a.value.StandsIn text
  | .error offset => IsBoundary text offset

/-- The entries stand in the text, or the fault does. -/
def LocatedEntries (text : List Char) : Except MapFault (List Entry) → Prop
  | .ok entries => ∀ entry ∈ entries, entry.StandsIn text
  | .error (offset, _) => IsBoundary text offset

theorem Segment.StandsIn.boundary {segment : Segment} (h : segment.StandsIn text) :
    IsBoundary text segment.offset := by
  obtain ⟨front, back, htext, hoffset⟩ := h
  exact ⟨front, segment.text ++ back, by rw [htext, List.append_assoc], hoffset.symm⟩

/-- A part of a part stands in the whole. -/
theorem Segment.StandsIn.within {segment : Segment} (h : segment.StandsIn text)
    (front back : List Char) :
    Segment.StandsIn ⟨byteSize front + segment.offset, segment.text⟩ (front ++ text ++ back) := by
  obtain ⟨first, second, rfl, hoffset⟩ := h
  refine ⟨front ++ first, second ++ back, by simp only [List.append_assoc], ?_⟩
  rw [byteSize_append, hoffset]

/-! ## Arguments -/

theorem takeLabel_isSuffix (input : List Char) : (takeLabel input).2 <:+ input := by
  have hlabel := Grammar.leaves_label Grammar.leaves_identifier input
  rw [takeLabel]
  cases h : Grammar.label Grammar.identifier input with
  | done label rest =>
    rw [h] at hlabel
    exact (Grammar.skipLayout_isSuffix rest).trans hlabel
  | stuck rest => exact List.suffix_refl input

theorem isSuffix_of_takeValue (h : takeValue false start = some (value, rest)) : rest <:+ start := by
  obtain ⟨gap, hgap, -⟩ := exists_filler_of_takeValue h
  exact ⟨value ++ gap, hgap.symm⟩

/-- A value that is read from an end of the text stands there. -/
theorem standsIn_of_takeValue (hstart : start <:+ text)
    (h : takeValue false start = some (value, rest)) :
    Segment.StandsIn ⟨offsetOf text start, value⟩ text := by
  obtain ⟨before, rfl⟩ := hstart
  obtain ⟨gap, rfl, -⟩ := exists_filler_of_takeValue h
  exact ⟨before, gap ++ rest, by simp only [List.append_assoc], offsetOf_append _ _⟩

namespace Checked

/-- The arguments from a position on. -/
def argumentsFrom (text : List Char) :
    Nat → List Char → Option (Except Nat (List (Argument Segment)))
  | 0, _ => none
  | fuel + 1, input =>
    match skipLayout input with
    | [] => some (.ok [])
    | start => do
      let (label, start) := takeLabel start
      let offset ← offsetOf text start
      match ← value? start with
      | none => return .error offset
      | some (value, []) => return .ok [⟨label, ⟨offset, value⟩⟩]
      | some (value, ',' :: rest) =>
        chain (argumentsFrom text fuel (← cutFrom 1 (',' :: rest))) fun arguments =>
          some (.ok (⟨label, ⟨offset, value⟩⟩ :: arguments))
      | some (_, rest) => return .error (← offsetOf text rest)

/-- The arguments that a text between parentheses lists. -/
def splitArguments (text : List Char) : Option (Except Nat (List (Argument Segment))) :=
  argumentsFrom text (text.length + 1) text

theorem argumentsFrom_eq (hinput : input <:+ text) (hfuel : input.length < fuel) :
    argumentsFrom text fuel input = some (Cookbook.argumentsFrom text fuel input) ∧
      LocatedArguments text (Cookbook.argumentsFrom text fuel input) := by
  -- What is not read yet is an end of the text, so that its offset is the difference of two sizes.
  induction fuel generalizing input with
  | zero => omega
  | succ fuel ih =>
    rw [argumentsFrom, Cookbook.argumentsFrom]
    have hskip := Grammar.skipLayout_isSuffix input
    cases hstart : skipLayout input with
    | nil => exact ⟨rfl, List.forall_mem_nil _⟩
    | cons c tail =>
      rw [hstart] at hskip
      have hlabel := (takeLabel_isSuffix (c :: tail)).trans hskip
      dsimp only
      generalize takeLabel (c :: tail) = labelled at hlabel ⊢
      obtain ⟨label, start⟩ := labelled
      obtain ⟨hoffset, hboundary⟩ := offsetOf_of_suffix (hlabel.trans hinput)
      simp only [hoffset, value?_eq, Option.bind_eq_bind, Option.bind_some]
      rcases htake : takeValue false start with _ | ⟨value, _ | ⟨d, rest⟩⟩
      · exact ⟨rfl, hboundary⟩
      · refine ⟨rfl, fun a ha => ?_⟩
        rw [List.mem_singleton] at ha
        rw [ha]
        exact standsIn_of_takeValue (hlabel.trans hinput) htake
      · have hrest := (isSuffix_of_takeValue htake).trans hlabel
        have hlength := hrest.length_le
        rw [List.length_cons] at hlength
        by_cases hcomma : d = ','
        · subst hcomma
          have hcut : cutFrom 1 (',' :: rest) = some rest := cutFrom_cons ',' rest
          have hmore := (List.suffix_cons ',' rest).trans (hrest.trans hinput)
          simp only [hcut, Option.bind_some]
          exact chain_located (ih hmore (by omega)) (fun _ h => h) fun arguments h =>
            ⟨rfl, List.forall_mem_cons.mpr
              ⟨standsIn_of_takeValue (hlabel.trans hinput) htake, h⟩⟩
        · obtain ⟨hend, hboundary⟩ := offsetOf_of_suffix (hrest.trans hinput)
          simp [hcomma, hend, LocatedArguments, hboundary]

/-- All cuts of the reader of arguments are sound. -/
theorem splitArguments_eq (text : List Char) :
    splitArguments text = some (Cookbook.splitArguments text) :=
  (argumentsFrom_eq (List.suffix_refl text) (Nat.lt_succ_self _)).1

theorem located_splitArguments (text : List Char) :
    LocatedArguments text (Cookbook.splitArguments text) :=
  (argumentsFrom_eq (List.suffix_refl text) (Nat.lt_succ_self _)).2

/-! ## Entries -/

/-- What follows the formals of a rule; the whole text if it has none. -/
def afterFormals (input : List Char) : List Char :=
  match Grammar.formals input with
  | .done _ rest => rest
  | .stuck _ => input

/-- The text of a rule, which starts at `input`, and what follows it. -/
def takeRule (text input : List Char) : Option (Except MapFault (Segment × List Char)) := do
  let offset ← offsetOf text input
  let body := afterFormals input
  let bodyOffset ← offsetOf text body
  match ← value? body with
  | none => return .error (bodyOffset, .value)
  | some (value, rest) =>
    -- The formals belong to the text of the rule, so it is cut out from the first one on.
    let written ← cut offset (bodyOffset + byteSize value) text
    return .ok (⟨offset, trimEnd written⟩, rest)

/-- The entry at the start of a text, and what follows it. -/
def takeEntry (text start : List Char) : Option (Except MapFault (Entry × List Char)) := do
  let keyOffset ← offsetOf text start
  match literal start with
  | .stuck _ => return .error (keyOffset, .key)
  | .done key rest => do
    let sign := skipLayout rest
    let signOffset ← offsetOf text sign
    match sign with
    | ':' :: rest =>
      chain (takeRule text (skipLayout rest)) fun (value, rest) =>
        some (.ok (⟨String.ofList key, keyOffset, value⟩, rest))
    | _ => return .error (signOffset, .colon)

/-- The entries from a position on, and what follows the closing brace. -/
def entriesFrom (text : List Char) :
    Nat → List Char → Option (Except MapFault (List Entry × List Char))
  | 0, _ => none
  | fuel + 1, input =>
    match skipLayout input with
    | '}' :: rest => some (.ok ([], rest))
    | start =>
      chain (takeEntry text start) fun (entry, rest) =>
        match rest with
        | ',' :: rest => do
          chain (entriesFrom text fuel (← cutFrom 1 (',' :: rest))) fun (entries, rest) =>
            some (.ok (entry :: entries, rest))
        | '}' :: rest => some (.ok ([entry], rest))
        | rest => do return .error (← offsetOf text rest, .separator)

/-- The entries of an argument map. -/
def splitEntries (text : List Char) : Option (Except MapFault (List Entry)) :=
  match skipLayout text with
  | '{' :: rest => do
    chain (entriesFrom text (text.length + 1) (← cutFrom 1 ('{' :: rest))) fun (entries, rest) =>
      match skipLayout rest with
      | [] => some (.ok entries)
      | rest => do return .error (← offsetOf text rest, .ending)
  | start => do return .error (← offsetOf text start, .opening)

/-- The text of a rule stands in the map, and so does what follows it. -/
def LocatedRule (text input : List Char) : Except MapFault (Segment × List Char) → Prop
  | .ok (segment, rest) => segment.StandsIn text ∧ rest <:+ input
  | .error (offset, _) => IsBoundary text offset

/-- The text of a rule with the offset at which it stands. -/
def locateRule (text input : List Char) : Except MapFault (Segment × List Char) :=
  match Cookbook.takeRule input with
  | .ok (value, rest) => .ok (⟨Text.offsetOf text input, value⟩, rest)
  | .error body => .error (Text.offsetOf text body, .value)

theorem afterFormals_isSuffix (input : List Char) : afterFormals input <:+ input := by
  have hformals := Grammar.leaves_formals input
  rw [afterFormals]
  cases h : Grammar.formals input with
  | done _ rest => rwa [h] at hformals
  | stuck _ => exact List.suffix_refl input

theorem takeRule_afterFormals (input : List Char) :
    Cookbook.takeRule input =
      match takeValue false (afterFormals input) with
      | some (value, rest) => .ok (trimEnd (front input (afterFormals input) ++ value), rest)
      | none => .error (afterFormals input) :=
  rfl

/-- The text of a rule is what is cut out of the map, from its first formal to the end of its
value. -/
theorem takeRule_eq (hinput : input <:+ text) :
    takeRule text input = some (locateRule text input) ∧
      LocatedRule text input (locateRule text input) := by
  have hbody := afterFormals_isSuffix input
  rw [takeRule, locateRule, takeRule_afterFormals]
  generalize afterFormals input = body at hbody ⊢
  obtain ⟨hoffset, hboundary⟩ := offsetOf_of_suffix (hbody.trans hinput)
  simp only [hoffset, (offsetOf_of_suffix hinput).1, value?_eq, Option.bind_eq_bind,
    Option.bind_some]
  rcases htake : takeValue false body with _ | ⟨value, rest⟩
  · exact ⟨rfl, hboundary⟩
  · obtain ⟨before, rfl⟩ := hinput
    obtain ⟨lead, rfl⟩ := hbody
    obtain ⟨gap, rfl, -⟩ := exists_filler_of_takeValue htake
    have htext : before ++ (lead ++ (value ++ gap ++ rest)) =
        before ++ (lead ++ value) ++ (gap ++ rest) := by
      simp only [List.append_assoc]
    have hcut : cut (byteSize before) (byteSize before + byteSize lead + byteSize value)
        (before ++ (lead ++ (value ++ gap ++ rest))) = some (lead ++ value) := by
      rw [htext, Nat.add_assoc, ← byteSize_append, cut_append]
    have hsize : Text.offsetOf (before ++ (lead ++ (value ++ gap ++ rest))) (value ++ gap ++ rest) =
        byteSize before + byteSize lead := by
      rw [← List.append_assoc, Text.offsetOf_append, byteSize_append]
    -- The blanks that are trimmed off stand behind the segment.
    obtain ⟨blanks, htrim, -⟩ := exists_trimEnd_append (lead ++ value)
    have hstands : before ++ (lead ++ (value ++ gap ++ rest)) =
        before ++ trimEnd (lead ++ value) ++ (blanks ++ (gap ++ rest)) := by
      rw [List.append_assoc before (trimEnd _), ← List.append_assoc (trimEnd _), htrim]
      simp only [List.append_assoc]
    simp only [hsize, Text.offsetOf_append, front_append, hcut, Option.bind_some]
    refine ⟨rfl, ⟨before, _, hstands, rfl⟩, ⟨lead ++ value ++ gap, ?_⟩⟩
    simp only [List.append_assoc]

/-- The entry at the start of a text, with the offsets of its parts. -/
def locateEntry (text start : List Char) : Except MapFault (Entry × List Char) :=
  match literal start with
  | .stuck _ => .error (Text.offsetOf text start, .key)
  | .done key rest =>
    match skipLayout rest with
    | ':' :: rest => do
      let (value, rest) ← locateRule text (skipLayout rest)
      return (⟨String.ofList key, Text.offsetOf text start, value⟩, rest)
    | rest => .error (Text.offsetOf text rest, .colon)

/-- The entry stands in the map, and so does what follows it. -/
def LocatedEntry (text start : List Char) : Except MapFault (Entry × List Char) → Prop
  | .ok (entry, rest) => entry.StandsIn text ∧ rest <:+ start
  | .error (offset, _) => IsBoundary text offset

theorem takeEntry_eq (hstart : start <:+ text) :
    takeEntry text start = some (locateEntry text start) ∧
      LocatedEntry text start (locateEntry text start) := by
  obtain ⟨hkey, hboundary⟩ := offsetOf_of_suffix hstart
  have hliteral := Grammar.leaves_literal start
  rw [takeEntry, locateEntry, hkey]
  cases hread : literal start with
  | stuck rest => exact ⟨rfl, hboundary⟩
  | done key rest =>
    rw [hread] at hliteral
    have hsign := (Grammar.skipLayout_isSuffix rest).trans hliteral
    simp only [Option.bind_eq_bind, Option.bind_some]
    generalize skipLayout rest = sign at hsign ⊢
    -- Each reader leaves a suffix of what it was given, hence of the whole text, and such a suffix
    -- has an offset.
    obtain ⟨hoffset, hend⟩ := offsetOf_of_suffix (hsign.trans hstart)
    rw [hoffset]
    by_cases hcolon : ∃ rest, sign = ':' :: rest
    · obtain ⟨rest, rfl⟩ := hcolon
      have hrest := (Grammar.skipLayout_isSuffix rest).trans
        ((List.suffix_cons ':' rest).trans hsign)
      exact chain_located (takeRule_eq (hrest.trans hstart)) (fun _ h => h) fun found h =>
        ⟨rfl, ⟨hboundary, h.1⟩, h.2.trans hrest⟩
    · have hne : ∀ rest, sign = ':' :: rest → False := fun rest h => hcolon ⟨rest, h⟩
      simp only [Option.bind_some]
      exact ⟨rfl, hend⟩

/-- The entries stand in the map, and so does what follows them. -/
def LocatedRest (text : List Char) : Except MapFault (List Entry × List Char) → Prop
  | .ok (entries, rest) => (∀ entry ∈ entries, entry.StandsIn text) ∧ rest <:+ text
  | .error (offset, _) => IsBoundary text offset

/-- Entries are read one after the other. -/
theorem entriesFrom_succ (hskip : skipLayout input = start) (hend : ∀ rest, start ≠ '}' :: rest) :
    Cookbook.entriesFrom text (fuel + 1) input = (do
      let (entry, rest) ← locateEntry text start
      match rest with
      | ',' :: rest => do
        let (entries, rest) ← Cookbook.entriesFrom text fuel rest
        return (entry :: entries, rest)
      | '}' :: rest => .ok ([entry], rest)
      | rest => .error (Text.offsetOf text rest, .separator)) := by
  -- The reader is one nested match. Its first cases are those of `locateEntry`, as is seen by going
  -- through them.
  have hne : ∀ rest, start = '}' :: rest → False := hend
  rw [Cookbook.entriesFrom, hskip, locateEntry]
  simp only
  cases literal start with
  | stuck rest => rfl
  | done key rest =>
    dsimp only
    generalize skipLayout rest = sign
    by_cases hcolon : ∃ rest, sign = ':' :: rest
    · obtain ⟨rest, rfl⟩ := hcolon
      simp only [locateRule]
      cases Cookbook.takeRule (skipLayout rest) <;> rfl
    · have hne : ∀ rest, sign = ':' :: rest → False := fun rest h => hcolon ⟨rest, h⟩
      simp only
      rfl

theorem entriesFrom_eq (hinput : input <:+ text) (hfuel : input.length < fuel) :
    entriesFrom text fuel input = some (Cookbook.entriesFrom text fuel input) ∧
      LocatedRest text (Cookbook.entriesFrom text fuel input) := by
  induction fuel generalizing input with
  | zero => omega
  | succ fuel ih =>
    have hskip := Grammar.skipLayout_isSuffix input
    by_cases hend : ∃ rest, skipLayout input = '}' :: rest
    · obtain ⟨rest, hrest⟩ := hend
      rw [entriesFrom, Cookbook.entriesFrom, hrest]
      rw [hrest] at hskip
      exact ⟨rfl, List.forall_mem_nil _, (List.suffix_cons '}' rest).trans (hskip.trans hinput)⟩
    have hne : ∀ rest, skipLayout input = '}' :: rest → False := fun rest h => hend ⟨rest, h⟩
    rw [entriesFrom, entriesFrom_succ rfl hne]
    generalize skipLayout input = start at hskip hne ⊢
    simp only
    refine chain_located (takeEntry_eq (hskip.trans hinput)) (fun _ h => h) fun found h => ?_
    obtain ⟨entry, rest⟩ := found
    obtain ⟨hentry, hrest⟩ := h
    -- An entry may leave its whole text, and it is the comma behind it that makes the rest shorter.
    have hshorter := (hrest.trans hskip).length_le
    have hrest := hrest.trans (hskip.trans hinput)
    obtain ⟨hplace, hboundary⟩ := offsetOf_of_suffix hrest
    rcases rest with _ | ⟨d, after⟩
    · simp only [hplace]
      exact ⟨rfl, hboundary⟩
    have hafter := (List.suffix_cons d after).trans hrest
    by_cases hcomma : d = ','
    · subst hcomma
      have hcut : cutFrom 1 (',' :: after) = some after := cutFrom_cons ',' after
      rw [List.length_cons] at hshorter
      simp only [hcut, Option.bind_eq_bind, Option.bind_some]
      exact chain_located (ih hafter (by omega)) (fun _ h => h) fun found h =>
        ⟨rfl, List.forall_mem_cons.mpr ⟨hentry, h.1⟩, h.2⟩
    by_cases hbrace : d = '}'
    · subst hbrace
      exact ⟨rfl, List.forall_mem_singleton.mpr hentry, hafter⟩
    · simp [hcomma, hbrace, hplace, LocatedRest, hboundary]

/-- All cuts of the reader of entries are sound, and what it returns stands in the map. -/
theorem splitEntries_eq (text : List Char) :
    splitEntries text = some (Cookbook.splitEntries text) ∧
      LocatedEntries text (Cookbook.splitEntries text) := by
  -- All offsets are those of suffixes of the text: of the opening brace, of what the entries leave,
  -- and of what follows the closing brace.
  have hskip := Grammar.skipLayout_isSuffix text
  rw [splitEntries, Cookbook.splitEntries]
  generalize skipLayout text = start at hskip ⊢
  by_cases hopen : ∃ rest, start = '{' :: rest
  · obtain ⟨rest, rfl⟩ := hopen
    have hrest := (List.suffix_cons '{' rest).trans hskip
    have hlength := hskip.length_le
    rw [List.length_cons] at hlength
    have hcut : cutFrom 1 ('{' :: rest) = some rest := cutFrom_cons '{' rest
    simp only [hcut, Option.bind_eq_bind, Option.bind_some]
    obtain ⟨heq, hlocated⟩ := entriesFrom_eq hrest (by omega : rest.length < text.length + 1)
    rw [heq]
    cases hentries : Cookbook.entriesFrom text (text.length + 1) rest with
    | error fault =>
      rw [hentries] at hlocated
      exact ⟨rfl, hlocated⟩
    | ok found =>
      rw [hentries] at hlocated
      have hend := (Grammar.skipLayout_isSuffix found.2).trans hlocated.2
      simp only [chain, Option.bind_eq_bind, Option.bind_some]
      generalize skipLayout found.2 = tail at hend ⊢
      obtain ⟨hplace, hboundary⟩ := offsetOf_of_suffix hend
      cases tail with
      | nil => exact ⟨rfl, hlocated.1⟩
      | cons c tail =>
        simp only [hplace, Option.bind_some]
        exact ⟨rfl, hboundary⟩
  · have hne : ∀ rest, start = '{' :: rest → False := fun rest h => hopen ⟨rest, h⟩
    obtain ⟨hplace, hboundary⟩ := offsetOf_of_suffix hskip
    simp only [hplace]
    exact ⟨rfl, hboundary⟩

end Checked

end Cookbook
