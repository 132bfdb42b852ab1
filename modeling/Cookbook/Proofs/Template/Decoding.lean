import Cookbook.Proofs.Except
import Cookbook.Proofs.Rule.Tokens
import Cookbook.Proofs.Template.Filling

/-!
# Written templates are read back

Pieces are written as a template: a text with its braces doubled, a placeholder between single
braces. However the braces of a text meet those of a placeholder, the pieces are read back. Only what
no template can show is lost: where one text ended and the next one began, and texts without
characters.

## Main definitions

* `write`: the template of pieces.
* `joined`: pieces with adjacent texts joined and empty texts dropped.

## Main results

* `parse_write`: the pieces of a written template.
* `decoded_of_pieces`: what is read is joined, and can be written.
* `uniquely_decodable`: reading inverts writing, on pieces and on templates.
-/

namespace Cookbook.Template

open Cookbook.Text

/-! ## Writing -/

/-- What stands between the braces of a placeholder. -/
def fieldText : Placeholder → List Char
  | .next => []
  | .index position => (Number.decimal position).toList
  | .named name => name.toList

/-- A piece as template text. -/
def writePiece : Piece → List Char
  | .text content => (escape content).toList
  | .hole hole => '{' :: (fieldText hole ++ ['}'])

/-- Pieces as a template. -/
def write (ps : List Piece) : String :=
  String.ofList (ps.flatMap writePiece)

/-- A piece that can be written: an index has 64 bits, and a name is an identifier. -/
def Writable : Piece → Prop
  | .text _ | .hole .next => True
  | .hole (.index position) => position < Nat.pow 2 64
  | .hole (.named name) => isIdentifier name.toList = true

/-- Puts a text in front of pieces, into their first text if they start with one. -/
def joinText (content : String) : List Piece → List Piece
  | .text more :: ps => .text (content ++ more) :: ps
  | ps => if content = "" then ps else .text content :: ps

/-- Pieces with adjacent texts joined and empty texts dropped. -/
def joined : List Piece → List Piece
  | [] => []
  | .text content :: ps => joinText content (joined ps)
  | .hole hole :: ps => .hole hole :: joined ps

variable {ps : List Piece}

/-! ## Texts -/

theorem consChar_joinText (c : Char) (content : String) (ps : List Piece) :
    consChar c (joinText content ps) = joinText (String.singleton c ++ content) ps := by
  match ps with
  | .text more :: ps => exact congrArg (Piece.text · :: ps) (String.append_assoc ..).symm
  | [] => by_cases h : content = "" <;> simp [joinText, consChar, h]
  | .hole hole :: ps => by_cases h : content = "" <;> simp [joinText, consChar, h]

theorem joinText_empty (ps : List Piece) : joinText "" ps = ps := by
  match ps with
  | .text more :: ps => exact congrArg (Piece.text · :: ps) String.empty_append
  | [] => rfl
  | .hole hole :: ps => rfl

theorem consText_eq_joinText (text : List Char) (ps : List Piece) :
    consText text ps = joinText (String.ofList text) ps := by
  induction text with
  | nil => exact (joinText_empty ps).symm
  | cons c text ih =>
    show consChar c (consText text ps) = _
    rw [ih, consChar_joinText, String.ofList_cons]

theorem joined_consChar (c : Char) (ps : List Piece) :
    joined (consChar c ps) = consChar c (joined ps) := by
  match ps with
  | .text content :: ps => exact (consChar_joinText c content (joined ps)).symm
  | [] => exact (consText_eq_joinText [c] []).symm
  | .hole hole :: ps => exact (consText_eq_joinText [c] (.hole hole :: joined ps)).symm

theorem writePiece_append (one other : String) :
    writePiece (.text (one ++ other)) = writePiece (.text one) ++ writePiece (.text other) := by
  simp [writePiece, escape]

theorem flatMap_joinText (content : String) (ps : List Piece) :
    (joinText content ps).flatMap writePiece = writePiece (.text content) ++ ps.flatMap writePiece := by
  have hempty : writePiece (.text "") = [] := rfl
  match ps with
  | .text more :: ps => simp [joinText, writePiece_append]
  | [] => by_cases h : content = "" <;> simp [joinText, h, hempty]
  | .hole hole :: ps => by_cases h : content = "" <;> simp [joinText, h, hempty]

/-- What `joined` forgets is not written. -/
theorem write_joined (ps : List Piece) : write (joined ps) = write ps := by
  have h : (joined ps).flatMap writePiece = ps.flatMap writePiece := by
    induction ps with
    | nil => rfl
    | cons p ps ih =>
      cases p with
      | text content => rw [joined, flatMap_joinText, ih, List.flatMap_cons]
      | hole hole => rw [joined, List.flatMap_cons, List.flatMap_cons, ih]
  rw [write, write, h]

/-! ## Placeholders -/

variable {hole : Placeholder}

/-- The characters between the braces are those of identifiers. -/
theorem isIdentChar_fieldText (h : Writable (.hole hole)) :
    ∀ c ∈ fieldText hole, isIdentChar c = true := by
  cases hole with
  | next => exact fun c hc => absurd hc List.not_mem_nil
  | index position =>
    intro c hc
    rw [fieldText, Number.decimal, String.toList_ofList] at hc
    simp [isIdentChar, Char.isAlphanum, isDigit_toDigits position c hc]
  | named name => exact forall_isIdentChar h

/-- Without a plus sign in front an index is a row of digits. -/
theorem index?_eq {field : List Char} (h : field.head? ≠ some '+') :
    index? field =
      if field.isEmpty || !field.all Char.isDigit then none
      else if digitsValue field < Nat.pow 2 64 then some (digitsValue field) else none := by
  unfold index?
  split
  · exact absurd rfl h
  · rfl

theorem index?_decimal {position : Nat} (h : position < Nat.pow 2 64) :
    index? (Number.decimal position).toList = some position := by
  rw [Number.decimal, String.toList_ofList]
  have hplus : (Nat.toDigits 10 position).head? ≠ some '+' := fun hhead =>
    absurd (isDigit_toDigits position '+' (List.mem_of_head? hhead)) (by decide)
  have hvalue : digitsValue (Nat.toDigits 10 position) = position := foldl_toDigits position
  have hall : (Nat.toDigits 10 position).all Char.isDigit = true :=
    List.all_eq_true.mpr (isDigit_toDigits position)
  rw [index?_eq hplus, hvalue, hall, isEmpty_toDigits, if_pos h]
  rfl

/-- A name is not taken for an index, because it starts with no digit. -/
theorem index?_identifier {field : List Char} (h : isIdentifier field = true) :
    index? field = none := by
  obtain ⟨c, rest, rfl, hc, -⟩ := exists_cons_of_isIdentifier h
  have hdigit : c.isDigit = false := (Bool.or_eq_false_iff.mp (of_isIdentStart hc).2.2.2.2).1
  have hplus : (c :: rest).head? ≠ some '+' := by simpa using ne_of_test hc (by decide)
  rw [index?_eq hplus]
  simp [hdigit]

/-- What is written between the braces of a placeholder is read as that placeholder. -/
theorem placeholder_fieldText (h : Writable (.hole hole)) :
    placeholder (fieldText hole) = .ok hole := by
  have htrim : trim (fieldText hole) = fieldText hole := trim_identChars (isIdentChar_fieldText h)
  rw [placeholder, htrim]
  cases hole with
  | next => rfl
  | index position =>
    have hne : (Number.decimal position).toList.isEmpty = false := by
      rw [Number.decimal, String.toList_ofList, isEmpty_toDigits]
    simp [fieldText, index?_decimal h, hne]
  | named name =>
    have hname : isIdentifier name.toList = true := h
    have hne : name.toList.isEmpty = false := by
      obtain ⟨c, rest, htext, -⟩ := exists_cons_of_isIdentifier hname
      rw [htext]
      rfl
    simp [fieldText, index?_identifier hname, hname, hne]

theorem lt_of_index? {field : List Char} {position : Nat} (h : index? field = some position) :
    position < Nat.pow 2 64 := by
  simp only [index?, Option.ite_none_left_eq_some, Option.ite_none_right_eq_some] at h
  obtain ⟨-, hlt, hvalue⟩ := h
  exact Option.some.inj hvalue ▸ hlt

/-- What is read between braces can be written. -/
theorem writable_of_placeholder {field : List Char} (h : placeholder field = .ok hole) :
    Writable (.hole hole) := by
  unfold placeholder at h
  simp only at h
  split at h
  · cases h
    trivial
  · split at h
    · next position hindex =>
      cases h
      exact lt_of_index? hindex
    · split at h
      · next hname =>
        cases h
        rw [Writable, String.toList_ofList]
        exact hname
      · cases h

/-! ## Reading what is written -/

/-- Written pieces are read back one by one. -/
theorem pieces_write (h : ∀ p ∈ ps, Writable p) :
    pieces none (ps.flatMap writePiece) = .ok (joined ps) := by
  induction ps with
  | nil => rfl
  | cons p ps ih =>
    rw [List.forall_mem_cons] at h
    rw [List.flatMap_cons]
    cases p with
    | text content =>
      rw [writePiece, escape, String.toList_ofList, pieces_append_escape, ih h.2]
      exact congrArg Except.ok (by rw [consText_eq_joinText, String.ofList_toList, joined])
    | hole hole =>
      -- No brace stands in the field, so its braces are the outer ones.
      have hchars := isIdentChar_fieldText h.1
      have hopen : (fieldText hole).head? ≠ some '{' := fun hhead =>
        absurd (hchars '{' (List.mem_of_head? hhead)) (by decide)
      have hclose : '}' ∉ fieldText hole := fun hmem => absurd (hchars '}' hmem) (by decide)
      have htext : writePiece (.hole hole) ++ ps.flatMap writePiece =
          '{' :: (fieldText hole ++ '}' :: ps.flatMap writePiece) := by
        simp [writePiece]
      rw [htext, pieces_append_field hopen hclose, placeholder_fieldText h.1, ih h.2, joined]
      rfl

theorem parse_write (h : ∀ p ∈ ps, Writable p) : parse (write ps) = .ok (joined ps) := by
  rw [parse, write, String.toList_ofList, pieces_write h]

/-! ## Writing what is read -/

/-- Pieces that are read have no texts to be joined or dropped, and they can be written. -/
structure Decoded (ps : List Piece) : Prop where
  joined_eq : joined ps = ps
  writable : ∀ p ∈ ps, Writable p

theorem Decoded.consChar (h : Decoded ps) (c : Char) : Decoded (consChar c ps) where
  joined_eq := by rw [joined_consChar, h.joined_eq]
  writable := by
    have hwritable := h.writable
    unfold Template.consChar
    split
    · rw [List.forall_mem_cons] at hwritable ⊢
      exact ⟨trivial, hwritable.2⟩
    · exact List.forall_mem_cons.mpr ⟨trivial, hwritable⟩

theorem Decoded.cons {hole : Placeholder} (hhole : Writable (.hole hole)) (h : Decoded ps) :
    Decoded (.hole hole :: ps) where
  joined_eq := by rw [joined, h.joined_eq]
  writable := List.forall_mem_cons.mpr ⟨hhole, h.writable⟩

theorem decoded_of_pieces {field : Option (List Char)} {text : List Char}
    (h : pieces field text = .ok ps) : Decoded ps := by
  fun_induction pieces field text generalizing ps
  case case1 =>
    cases h
    exact ⟨rfl, fun p hp => absurd hp List.not_mem_nil⟩
  case case2 | case8 => cases h
  case case3 rest written ih =>
    obtain ⟨hole, hhole, h⟩ := bind_eq_ok_iff.mp h
    obtain ⟨others, hothers, h⟩ := bind_eq_ok_iff.mp h
    cases h
    exact .cons (writable_of_placeholder hhole) (ih hothers)
  case case4 ih | case7 ih => exact ih h
  case case5 ih | case6 ih | case9 ih =>
    obtain ⟨others, hothers, rfl⟩ := map_eq_ok_iff.mp h
    exact (ih hothers).consChar _

/-! ## Both ways -/

/-- Template text is uniquely decodable. Written pieces are read back with adjacent texts joined and
empty texts dropped; pieces that are read can be written, and are read back as they are; and pieces
are written alike exactly if they are the same but for how their texts are cut. -/
theorem uniquely_decodable :
    (∀ ps : List Piece, (∀ p ∈ ps, Writable p) → parse (write ps) = .ok (joined ps)) ∧
    (∀ (template : String) (ps : List Piece), parse template = .ok ps →
      (∀ p ∈ ps, Writable p) ∧ joined ps = ps ∧ parse (write ps) = .ok ps) ∧
    ∀ ps qs : List Piece, (∀ p ∈ ps, Writable p) → (∀ q ∈ qs, Writable q) →
      (write ps = write qs ↔ joined ps = joined qs) := by
  refine ⟨fun ps h => parse_write h, fun template ps h => ?_, fun ps qs hps hqs => ⟨?_, ?_⟩⟩
  · have hdecoded : Decoded ps := decoded_of_pieces h
    have hparse := parse_write hdecoded.writable
    rw [hdecoded.joined_eq] at hparse
    exact ⟨hdecoded.writable, hdecoded.joined_eq, hparse⟩
  · intro hwrite
    have hparse := parse_write hps
    rw [hwrite, parse_write hqs] at hparse
    exact (Except.ok.inj hparse).symm
  · intro hjoined
    rw [← write_joined ps, hjoined, write_joined]

/-- Texts that end and begin with braces, next to each other and to placeholders. -/
def bracedPieces : List Piece :=
  [.text "\x7b", .hole .next, .text "\x7d", .text "", .text "\x7d\x7b", .hole (.index 10),
    .hole (.named "a_1"), .text "", .text "\x7b\x7dé"]

theorem uniquely_decodable_braced :
    write bracedPieces =
      "\x7b\x7b\x7b\x7d\x7d\x7d\x7d\x7d\x7b\x7b\x7b10\x7d\x7ba_1\x7d\x7b\x7b\x7d\x7dé" ∧
    parse (write bracedPieces) =
      .ok [.text "\x7b", .hole .next, .text "\x7d\x7d\x7b", .hole (.index 10), .hole (.named "a_1"),
        .text "\x7b\x7dé"] ∧
    parse "\x7b +07 \x7d\x7b\x7b" = .ok [.hole (.index 7), .text "\x7b"] ∧
    parse (write [.hole (.index 7), .text "\x7b"]) = .ok [.hole (.index 7), .text "\x7b"] := by
  have hname : isIdentifier "a_1".toList = true := by decide
  have hwritable : ∀ p ∈ bracedPieces, Writable p := by
    simpa [bracedPieces, Writable] using hname
  have hread : parse "\x7b +07 \x7d\x7b\x7b" = .ok [.hole (.index 7), .text "\x7b"] := by
    decide
  exact ⟨by decide, uniquely_decodable.1 bracedPieces hwritable, hread,
    (uniquely_decodable.2.1 _ _ hread).2.2⟩

end Cookbook.Template
