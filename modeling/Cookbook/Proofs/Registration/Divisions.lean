import Cookbook.Proofs.Checked.Items
import Cookbook.Proofs.Except
import Cookbook.Proofs.Rule.Runs
import Cookbook.Proofs.Text.Filler

/-!
# Divisions of a text

A text that is split loses nothing: it is made of the parts that are returned and of what may stand
around them, which is white space, comments, the commas in between and, in front of an argument, its
label with an equals sign. Every part is returned with the offset at which it stands in this sum.

## Main definitions

* `Divided`: pieces with commas between them, at an offset and in front of a text.
* `ArgumentPiece`, `EntryPiece`: an argument and an entry with all that stands around their parts.

## Main results

* `divided_splitArguments`, `divided_splitEntries`: what the two readers split is divided.
* `Divided.exists_piece`, `Divided.pairwise`: the parts stand at their offsets, one after the other.
-/

namespace Cookbook

open Cookbook.Text

variable {text input start rest value : List Char} {offset fuel : Nat}

/-! ## Pieces with commas between them -/

/-- Parts of a text, each in a piece of its own, with commas between the pieces. The pieces start at
an offset, and `stop` follows the last of them, behind which a comma may stand. -/
inductive Divided {α : Type} (Piece : Nat → List Char → α → List Char → Prop) (stop : List Char) :
    Nat → List α → List Char → Prop where
  | nil {offset : Nat} {gap : List Char} : Filler stop gap → Divided Piece stop offset [] gap
  | last {offset : Nat} {part : α} {text : List Char} : Piece offset stop part text →
      Divided Piece stop offset [part] text
  | cons {offset : Nat} {part : α} {parts : List α} {text more : List Char} :
      Piece offset (',' :: (more ++ stop)) part text →
      Divided Piece stop (offset + byteSize text + 1) parts more →
      Divided Piece stop offset (part :: parts) (text ++ ',' :: more)

section Divided

variable {α : Type} {Piece : Nat → List Char → α → List Char → Prop} {stop : List Char} {part : α}
  {parts : List α}

/-- Every part stands in its piece. -/
theorem Divided.exists_piece (h : Divided Piece stop offset parts text) (hpart : part ∈ parts) :
    ∃ front piece back, text = front ++ piece ++ back ∧
      Piece (offset + byteSize front) (back ++ stop) part piece := by
  induction h with
  | nil _ => cases hpart
  | @last offset other text hpiece =>
    obtain rfl := List.mem_singleton.mp hpart
    exact ⟨[], text, [], by simp, hpiece⟩
  | @cons offset other parts text more hpiece _ ih =>
    rcases List.mem_cons.mp hpart with rfl | hpart
    · exact ⟨[], text, ',' :: more, rfl, hpiece⟩
    · obtain ⟨front, piece, back, rfl, hpart⟩ := ih hpart
      refine ⟨text ++ ',' :: front, piece, back, by simp, ?_⟩
      have hsize : byteSize (text ++ ',' :: front) = byteSize text + 1 + byteSize front := by
        rw [byteSize_append, byteSize_cons, ← Nat.add_assoc]
        rfl
      rw [hsize]
      simpa only [Nat.add_assoc] using hpart

/-- If every part lies within its piece, then each one ends before the next one starts. -/
theorem Divided.pairwise {first last : α → Nat}
    (hpiece : ∀ {offset rest part text}, Piece offset rest part text →
      offset ≤ first part ∧ last part ≤ offset + byteSize text)
    (h : Divided Piece stop offset parts text) :
    parts.Pairwise (fun a b => last a < first b) ∧ ∀ a ∈ parts, offset ≤ first a := by
  induction h with
  | nil _ => exact ⟨.nil, List.forall_mem_nil _⟩
  | last hlast => exact ⟨List.pairwise_singleton _ _, List.forall_mem_singleton.mpr (hpiece hlast).1⟩
  | cons hpart _ ih =>
    obtain ⟨hfirst, hlast⟩ := hpiece hpart
    -- The comma behind the piece keeps the parts apart.
    refine ⟨List.pairwise_cons.mpr ⟨fun b hb => ?_, ih.1⟩, List.forall_mem_cons.mpr ⟨hfirst, ?_⟩⟩
    · have := ih.2 b hb
      omega
    · intro b hb
      have := ih.2 b hb
      omega

end Divided

/-! ## Arguments -/

/-- The label in front of a value, with its equals sign and what stands around it; `rest` starts with
the value. -/
inductive LabelText (rest : List Char) : Option String → List Char → Prop where
  | positional : LabelText rest none []
  | labelled {id : String} {gap after : List Char} : isIdentifier id.toList = true →
      Filler ('=' :: (after ++ rest)) gap → (after ++ rest).head? ≠ some '=' → Filler rest after →
      LabelText rest (some id) (id.toList ++ gap ++ '=' :: after)

/-- An argument with all that stands around its label and its value, at an offset and in front of
`rest`. -/
inductive ArgumentPiece (offset : Nat) (rest : List Char) : Argument Segment → List Char → Prop where
  | intro {label : Option String} {gap front value after : List Char} :
      Filler (front ++ (value ++ after ++ rest)) gap →
      LabelText (value ++ after ++ rest) label front → Filler rest after →
      ArgumentPiece offset rest ⟨label, ⟨offset + byteSize (gap ++ front), value⟩⟩
        (gap ++ front ++ value ++ after)

/-- The piece behind a comma starts one byte further on. -/
theorem byteSize_comma (before text : List Char) :
    byteSize (before ++ (text ++ [','])) = byteSize before + byteSize text + 1 := by
  rw [byteSize_append, byteSize_append, ← Nat.add_assoc]
  rfl

theorem offsetOf_behind (before text rest : List Char) :
    offsetOf (before ++ (text ++ rest)) rest = byteSize before + byteSize text := by
  rw [← List.append_assoc, offsetOf_append, byteSize_append]

/-- What stands in front of a value is its label, or nothing. -/
theorem exists_labelText {label : Option String} (h : takeLabel input = (label, start)) :
    ∃ front, input = front ++ start ∧ LabelText start label front := by
  rw [takeLabel] at h
  split at h
  · next id left hlabel =>
    cases h
    obtain ⟨middle, hid, hsign, hsingle⟩ := label_inv hlabel
    obtain ⟨hidentifier, rfl, -⟩ := identifier_inv hid
    obtain ⟨gap, rfl, hgap⟩ := exists_filler_of_skipLayout hsign
    obtain ⟨after, hleft, hafter⟩ := @exists_filler_of_skipLayout left _ rfl
    rw [hleft] at hgap hsingle
    refine ⟨id.toList ++ gap ++ '=' :: after, ?_, .labelled hidentifier hgap hsingle hafter⟩
    simp [← hleft]
  · cases h
    exact ⟨[], rfl, .positional⟩

/-- The arguments from a position on divide what is left of the text. -/
theorem divided_argumentsFrom {before : List Char} {arguments : List (Argument Segment)}
    (h : argumentsFrom (before ++ input) fuel input = .ok arguments) :
    Divided ArgumentPiece [] (byteSize before) arguments input := by
  -- What has been split off moves to the text before, from which the offsets count.
  induction fuel generalizing before input arguments with
  | zero => cases h
  | succ fuel ih =>
    rw [argumentsFrom] at h
    generalize hstart : skipLayout input = start at h
    obtain ⟨gap, rfl, hgap⟩ := exists_filler_of_skipLayout hstart
    split at h
    · cases h
      rw [List.append_nil]
      exact .nil hgap
    · generalize hlabel : takeLabel start = labelled at h
      obtain ⟨label, left⟩ := labelled
      obtain ⟨front, rfl, hfront⟩ := exists_labelText hlabel
      have hoffset : offsetOf (before ++ (gap ++ (front ++ left))) left =
          byteSize before + byteSize (gap ++ front) := by
        rw [← List.append_assoc gap, offsetOf_behind]
      simp only [hoffset] at h
      -- Only at a comma or at the end of the text is there more than an error.
      split at h
      · cases h
      · next value htake =>
        cases h
        obtain ⟨after, rfl, hafter⟩ := exists_filler_of_takeValue htake
        rw [List.append_nil, ← List.append_assoc, ← List.append_assoc]
        exact .last ⟨hgap, hfront, hafter⟩
      · next value rest htake =>
        obtain ⟨after, rfl, hafter⟩ := exists_filler_of_takeValue htake
        obtain ⟨others, hothers, hdone⟩ := bind_eq_ok_iff.mp h
        cases hdone
        have htext : gap ++ (front ++ (value ++ after ++ ',' :: rest)) =
            gap ++ front ++ value ++ after ++ ',' :: rest := by simp
        have hbefore : before ++ (gap ++ (front ++ (value ++ after ++ ',' :: rest))) =
            before ++ (gap ++ front ++ value ++ after ++ [',']) ++ rest := by simp
        rw [hbefore] at hothers
        have hmore := ih hothers
        rw [byteSize_comma] at hmore
        rw [← List.append_nil rest] at hgap hfront hafter
        rw [htext]
        exact .cons ⟨hgap, hfront, hafter⟩ hmore
      · cases h

/-- The arguments that are split off divide the text. -/
theorem divided_splitArguments {arguments : List (Argument Segment)}
    (h : splitArguments text = .ok arguments) : Divided ArgumentPiece [] 0 arguments text :=
  @divided_argumentsFrom text (text.length + 1) [] arguments h

/-- A value lies within its piece. -/
theorem ArgumentPiece.within {argument : Argument Segment}
    (h : ArgumentPiece offset rest argument text) :
    offset ≤ argument.value.offset ∧
      argument.value.offset + byteSize argument.value.text ≤ offset + byteSize text := by
  obtain ⟨-, -, -⟩ := h
  simp only [byteSize_append]
  omega

/-! ## Entries -/

/-- The key of an entry with its colon and what stands around that; `rest` starts with the text of
the rule. -/
inductive KeyText (rest : List Char) : String → List Char → Prop where
  | intro {key : String} {written gap after : List Char} :
      literal (written ++ (gap ++ ':' :: (after ++ rest))) =
        .done key.toList (gap ++ ':' :: (after ++ rest)) →
      Filler (':' :: (after ++ rest)) gap → Filler rest after →
      KeyText rest key (written ++ gap ++ ':' :: after)

/-- An entry with all that stands around its key and its rule, at an offset and in front of
`rest`. -/
inductive EntryPiece (offset : Nat) (rest : List Char) : Entry → List Char → Prop where
  | intro {key : String} {gap front value after : List Char} :
      Filler (front ++ (value ++ after ++ rest)) gap → KeyText (value ++ after ++ rest) key front →
      Filler rest after →
      EntryPiece offset rest ⟨key, offset + byteSize gap, ⟨offset + byteSize (gap ++ front), value⟩⟩
        (gap ++ front ++ value ++ after)

/-- Behind the text of a rule stands filler. -/
theorem exists_filler_of_takeRule (h : takeRule input = .ok (value, rest)) :
    ∃ gap, input = value ++ gap ++ rest ∧ Filler rest gap := by
  rw [Checked.takeRule_afterFormals] at h
  obtain ⟨lead, hinput⟩ := Checked.afterFormals_isSuffix input
  generalize Checked.afterFormals input = body at h hinput
  subst hinput
  split at h
  · next found rest htake =>
    cases h
    obtain ⟨after, rfl, hafter⟩ := exists_filler_of_takeValue htake
    -- The blanks that are trimmed off are filler, too.
    obtain ⟨blanks, htrim, hblank⟩ := exists_trimEnd_append (lead ++ found)
    rw [front_append]
    refine ⟨blanks ++ after, ?_, hafter.of_blanks hblank⟩
    calc lead ++ (found ++ after ++ rest)
        = lead ++ found ++ (after ++ rest) := by simp only [List.append_assoc]
      _ = trimEnd (lead ++ found) ++ blanks ++ (after ++ rest) := by rw [htrim]
      _ = trimEnd (lead ++ found) ++ (blanks ++ after) ++ rest := by simp only [List.append_assoc]
  · cases h

/-- In front of the text of a rule stand its key and a colon. -/
theorem exists_keyText {key left : List Char} (hkey : literal input = .done key left)
    (hsign : skipLayout left = ':' :: rest) (hstart : skipLayout rest = start) :
    ∃ front, input = front ++ start ∧ KeyText start (String.ofList key) front := by
  obtain ⟨written, -, rfl⟩ := exists_append_of_literal hkey
  obtain ⟨gap, rfl, hgap⟩ := exists_filler_of_skipLayout hsign
  obtain ⟨after, rfl, hafter⟩ := exists_filler_of_skipLayout hstart
  refine ⟨written ++ gap ++ ':' :: after, by simp, .intro ?_ hgap hafter⟩
  rw [hkey, String.toList_ofList]

/-- What is read as an entry is its piece, up to the comma or the brace that follows. -/
theorem exists_entryPiece {before gap : List Char} {entry : Entry} (hgap : Filler start gap)
    (h : Checked.locateEntry (before ++ (gap ++ start)) start = .ok (entry, rest)) :
    ∃ piece, gap ++ start = piece ++ rest ∧ EntryPiece (byteSize before) rest entry piece := by
  -- An entry is found only by its key, its colon and its rule, in this order; the piece is what the
  -- three take with the gaps between them.
  unfold Checked.locateEntry at h
  split at h
  · cases h
  · next key left hkey =>
    split at h
    · next behind hsign =>
      generalize hstart : skipLayout behind = input at h
      obtain ⟨front, rfl, hfront⟩ := exists_keyText hkey hsign hstart
      obtain ⟨⟨segment, left⟩, hrule, hdone⟩ := bind_eq_ok_iff.mp h
      cases hdone
      unfold Checked.locateRule at hrule
      split at hrule
      · next value rest htake =>
        cases hrule
        obtain ⟨after, rfl, hafter⟩ := exists_filler_of_takeRule htake
        refine ⟨gap ++ front ++ value ++ after, by simp, ?_⟩
        rw [offsetOf_behind, ← List.append_assoc gap, offsetOf_behind]
        exact .intro hgap hfront hafter
      · cases hrule
    · cases h

/-- The entries from a position on, up to the closing brace. -/
theorem divided_entriesFrom {before : List Char} {entries : List Entry}
    (h : entriesFrom (before ++ input) fuel input = .ok (entries, rest)) :
    ∃ body, input = body ++ '}' :: rest ∧
      Divided EntryPiece ('}' :: rest) (byteSize before) entries body := by
  -- As for arguments, an entry and its comma move to the text before.
  induction fuel generalizing before input entries with
  | zero => cases h
  | succ fuel ih =>
    generalize hstart : skipLayout input = start
    obtain ⟨gap, rfl, hgap⟩ := exists_filler_of_skipLayout hstart
    by_cases hend : ∃ tail, start = '}' :: tail
    · obtain ⟨tail, rfl⟩ := hend
      rw [entriesFrom, hstart] at h
      cases h
      exact ⟨gap, rfl, .nil hgap⟩
    rw [Checked.entriesFrom_succ hstart fun tail htail => hend ⟨tail, htail⟩] at h
    obtain ⟨⟨entry, left⟩, hentry, h⟩ := bind_eq_ok_iff.mp h
    obtain ⟨piece, htext, hpiece⟩ := exists_entryPiece hgap hentry
    rw [htext] at h ⊢
    dsimp only at h
    split at h
    · next more =>
      obtain ⟨⟨others, left⟩, hothers, hdone⟩ := bind_eq_ok_iff.mp h
      cases hdone
      have hbefore : before ++ (piece ++ ',' :: more) = before ++ (piece ++ [',']) ++ more := by simp
      rw [hbefore] at hothers
      obtain ⟨body, rfl, hbody⟩ := ih hothers
      rw [byteSize_comma] at hbody
      exact ⟨piece ++ ',' :: body, by simp, .cons hpiece hbody⟩
    · cases h
      exact ⟨piece, rfl, .last hpiece⟩
    · cases h

/-- What is split as a map stands between braces, with filler around them. -/
theorem divided_splitEntries {entries : List Entry} (h : splitEntries text = .ok entries) :
    ∃ gap body after, text = gap ++ '{' :: (body ++ '}' :: after) ∧
      Filler ('{' :: (body ++ '}' :: after)) gap ∧ Filler [] after ∧
      Divided EntryPiece ('}' :: after) (byteSize gap + 1) entries body := by
  unfold splitEntries at h
  split at h
  · next inner hstart =>
    obtain ⟨gap, htext, hgap⟩ := exists_filler_of_skipLayout hstart
    split at h
    · cases h
    · next found rest hfound =>
      split at h
      · next hend =>
        cases h
        obtain ⟨after, rfl, hafter⟩ := exists_filler_of_skipLayout hend
        -- What is left behind the entries is layout, and the closing brace stands in front of it.
        rw [List.append_nil] at hfound
        rw [htext, List.append_cons] at hfound
        obtain ⟨body, rfl, hbody⟩ := divided_entriesFrom hfound
        rw [byteSize_append] at hbody
        exact ⟨gap, body, after, htext, hgap, hafter, hbody⟩
      · cases h
  · cases h

/-- The key stands in front of the rule. -/
theorem EntryPiece.ahead {entry : Entry} (h : EntryPiece offset rest entry text) :
    entry.keyOffset < entry.value.offset := by
  obtain ⟨-, ⟨-, -, -⟩, -⟩ := h
  have hcolon : ':'.utf8Size = 1 := rfl
  simp only [byteSize_append, byteSize_cons]
  omega

/-- The key and the text of the rule lie within the piece of an entry. -/
theorem EntryPiece.within {entry : Entry} (h : EntryPiece offset rest entry text) :
    offset ≤ entry.keyOffset ∧
      entry.value.offset + byteSize entry.value.text ≤ offset + byteSize text := by
  obtain ⟨-, -, -⟩ := h
  simp only [byteSize_append]
  omega

/-- The key of an entry is the value of the literal at its offset, read in front of all that
follows. -/
theorem EntryPiece.key {entry : Entry} (h : EntryPiece offset rest entry text) :
    ∃ front start left, text ++ rest = front ++ start ∧ entry.keyOffset = offset + byteSize front ∧
      literal start = .done entry.key.toList left := by
  obtain ⟨-, hkey, -⟩ := h
  obtain ⟨hliteral, -, -⟩ := hkey
  exact ⟨_, _, _, by simp, rfl, hliteral⟩

/-! ## What is known of the parts -/

/-- A text is made of the arguments and of what may stand around them. Each of them stands at its
offset, and each one ends before the next one starts. -/
structure ArgumentDivision (text : List Char) (arguments : List (Argument Segment)) : Prop where
  divided : Divided ArgumentPiece [] 0 arguments text
  standsIn : ∀ a ∈ arguments, a.value.StandsIn text
  apart : arguments.Pairwise fun a b => a.value.offset + byteSize a.value.text < b.value.offset

/-- A text is made of braces, the entries between them and what may stand around these. The text of
each rule stands at its offset, the literal of its key starts at its own, in front of the rule, and
each entry ends before the next one starts. -/
structure EntryDivision (text : List Char) (entries : List Entry) : Prop where
  divided : ∃ gap body after, text = gap ++ '{' :: (body ++ '}' :: after) ∧
    Filler ('{' :: (body ++ '}' :: after)) gap ∧ Filler [] after ∧
    Divided EntryPiece ('}' :: after) (byteSize gap + 1) entries body
  standsIn : ∀ entry ∈ entries, entry.value.StandsIn text
  key : ∀ entry ∈ entries, ∃ front start rest, text = front ++ start ∧
    entry.keyOffset = byteSize front ∧ literal start = .done entry.key.toList rest
  ahead : ∀ entry ∈ entries, entry.keyOffset < entry.value.offset
  apart : entries.Pairwise fun a b => a.value.offset + byteSize a.value.text < b.keyOffset

theorem argumentDivision_of_split {arguments : List (Argument Segment)}
    (h : splitArguments text = .ok arguments) : ArgumentDivision text arguments where
  divided := divided_splitArguments h
  standsIn := by
    have hlocated := Checked.located_splitArguments text
    rwa [h] at hlocated
  apart := ((divided_splitArguments h).pairwise fun hpiece => hpiece.within).1

/-- Each entry of a map has a piece of its own. -/
theorem exists_piece_of_splitEntries {entries : List Entry} {entry : Entry}
    (h : splitEntries text = .ok entries) (hentry : entry ∈ entries) :
    ∃ before piece behind, text = before ++ (piece ++ behind) ∧
      EntryPiece (byteSize before) behind entry piece := by
  obtain ⟨gap, body, after, rfl, -, -, hbody⟩ := divided_splitEntries h
  obtain ⟨front, piece, back, rfl, hpiece⟩ := hbody.exists_piece hentry
  refine ⟨gap ++ '{' :: front, piece, back ++ '}' :: after, by simp, ?_⟩
  rwa [byteSize_append, byteSize_cons, ← Nat.add_assoc]

theorem entryDivision_of_split {entries : List Entry} (h : splitEntries text = .ok entries) :
    EntryDivision text entries where
  divided := divided_splitEntries h
  standsIn := by
    have hlocated := (Checked.splitEntries_eq text).2
    rw [h] at hlocated
    exact fun entry hentry => (hlocated entry hentry).value
  key := by
    intro entry hentry
    obtain ⟨before, piece, behind, htext, hpiece⟩ := exists_piece_of_splitEntries h hentry
    obtain ⟨front, start, rest, hstart, hoffset, hkey⟩ := hpiece.key
    refine ⟨before ++ front, start, rest, ?_, ?_, hkey⟩
    · rw [htext, hstart, List.append_assoc]
    · rw [hoffset, byteSize_append]
  ahead := by
    intro entry hentry
    obtain ⟨before, piece, behind, -, hpiece⟩ := exists_piece_of_splitEntries h hentry
    exact hpiece.ahead
  apart := by
    obtain ⟨gap, body, after, -, -, -, hbody⟩ := divided_splitEntries h
    exact (hbody.pairwise fun hpiece => hpiece.within).1

end Cookbook
