import Cookbook.Proofs.Checked.Items
import Cookbook.Proofs.Checked.Structure
import Cookbook.Proofs.Registration.CallSite
import Cookbook.Proofs.Text.Structural
import Cookbook.Registration

/-!
# Checked registration calls

The call of a header is found at an offset, and everything after the at sign is cut at sums of
offsets: its name, its opening parenthesis, the bracket that closes it and the text between.

## Main definitions

* `Call.StandsIn`: a call that stands in the header at its offsets.

## Main results

* `findCall_eq`, `arguments_eq`: all cuts on the way to the arguments are sound.
-/

namespace Cookbook

open Cookbook.Text

variable {header text : List Char} {lines : List (List Char)} {start offset : Nat}
  {found : Nat × List Char}

theorem Text.exists_of_mem_locate (h : found ∈ locate start lines) :
    ∃ before behind, lines = before ++ found.2 :: behind ∧
      found.1 = start + byteSize before.flatten := by
  induction lines generalizing start with
  | nil => cases h
  | cons line lines ih =>
    rcases List.mem_cons.mp h with rfl | h
    · exact ⟨[], lines, rfl, rfl⟩
    · obtain ⟨before, behind, rfl, hoffset⟩ := ih h
      refine ⟨line :: before, behind, rfl, ?_⟩
      rw [hoffset, List.flatten_cons, byteSize_append, Nat.add_assoc]

/-- The call stands in the header: an at sign, an opening parenthesis and a closing bracket at their
offsets. -/
def Call.StandsIn (call : Call) (header : List Char) : Prop :=
  IsBoundary header call.start ∧ ∃ before inner c after,
    header = before ++ '(' :: inner ++ c :: after ∧ isClosing c = true ∧
      call.openAt = byteSize before ∧ call.closeAt = call.openAt + 1 + byteSize inner

namespace Checked

/-! ## Finding the call -/

/-- Whether a text starts with an at sign, a name and an opening parenthesis. -/
def startsCall : List Char → Option Bool
  | '@' :: rest => do
    let size := byteSize (rest.takeWhile isIdentChar)
    if size = 0 then return false
    else return (trimStart (← cutFrom size rest)).head? == some '('
  | _ => some false

/-- The offset of the first call that starts one of the lines. -/
def startIn : List (Nat × List Char) → Option (Option Nat)
  | [] => some none
  | (offset, line) :: lines => do
    let trimmed := trimStart line
    if ← startsCall trimmed then return some (offset + (← offsetOf line trimmed))
    else startIn lines

/-- The call that starts at an offset, or the offset and the kind of the malformation. -/
def callAt (header : List Char) (start : Nat) : Option (Except (Nat × Malformation) Call) := do
  let written ← cutFrom (start + 1) header
  let size := byteSize (written.takeWhile isIdentChar)
  let name := String.ofList (← cutTo size written)
  match indexOf? ['('] (← cutFrom (start + 1 + size) header) with
  | none => return .error (start, .callWithoutArguments name)
  | some position =>
    let openAt := start + 1 + size + position
    match ← closeFrom header openAt with
    | none => return .error (start, .unclosedCall name)
    | some closeAt => return .ok ⟨name, start, openAt, closeAt⟩

/-- The first call of a header, or the offset and the kind of the malformation. -/
def findCall (header : List Char) : Option (Except (Nat × Malformation) Call) := do
  match ← startIn (locate 0 (fullLines header)) with
  | none => return .error (0, .noCall)
  | some start => callAt header start

/-- The arguments of a call, located in the header. -/
def arguments (call : Call) (header : List Char) :
    Option (Except (Nat × Malformation) (List (Argument Segment))) := do
  match ← splitArguments (← cut (call.openAt + 1) call.closeAt header) with
  | .error offset => return .error (call.openAt + 1 + offset, .unsplittableArguments call.name)
  | .ok found =>
    return .ok (found.map fun a => ⟨a.label, ⟨call.openAt + 1 + a.value.offset, a.value.text⟩⟩)

/-- What a stage of reading says of the header: a malformation stands in it. -/
def Located {α : Type} (header : List Char) (P : α → Prop) :
    Except (Nat × Malformation) α → Prop
  | .ok a => P a
  | .error (offset, _) => IsBoundary header offset

theorem cutFrom_takeWhile (p : Char → Bool) (text : List Char) :
    cutFrom (byteSize (text.takeWhile p)) text = some (text.dropWhile p) := by
  have hcut := cutFrom_append (text.takeWhile p) (text.dropWhile p)
  rwa [List.takeWhile_append_dropWhile] at hcut

theorem startsCall_eq (text : List Char) : startsCall text = some (Call.startsCall text) := by
  by_cases hsign : ∃ rest, text = '@' :: rest
  · obtain ⟨rest, rfl⟩ := hsign
    simp only [startsCall, Call.startsCall, cutFrom_takeWhile]
    cases rest.takeWhile isIdentChar with
    | nil => rfl
    | cons c name =>
      have hpos := c.utf8Size_pos
      have hsize : byteSize (c :: name) ≠ 0 := by
        rw [byteSize_cons]
        omega
      rw [if_neg hsize]
      rfl
  · have hne : ∀ rest, text = '@' :: rest → False := fun rest h => hsign ⟨rest, h⟩
    unfold startsCall Call.startsCall
    simp only

theorem startIn_eq (lines : List (Nat × List Char)) :
    startIn lines = some (lines.findSome? fun (offset, line) =>
      let trimmed := trimStart line
      if Call.startsCall trimmed then some (offset + Text.offsetOf line trimmed) else none) := by
  induction lines with
  | nil => rfl
  | cons first lines ih =>
    obtain ⟨offset, line⟩ := first
    have htrim : trimStart line <:+ line := List.dropWhile_suffix isBlank
    rw [startIn, List.findSome?_cons, ih, startsCall_eq, (offsetOf_of_suffix htrim).1]
    cases hstarts : Call.startsCall (trimStart line) <;> simp [hstarts]

/-- A call starts with an at sign. -/
theorem exists_of_start? (h : Call.start? header = some start) :
    ∃ front rest, header = front ++ '@' :: rest ∧ start = byteSize front := by
  obtain ⟨⟨offset, line⟩, hfound, hstart⟩ := List.exists_of_findSome?_eq_some h
  obtain ⟨before, behind, hlines, hoffset⟩ := exists_of_mem_locate hfound
  dsimp only at hstart hlines hoffset
  split at hstart
  · next hstarts =>
    obtain ⟨name, gap, more, htrim, -⟩ := startsCall_iff.mp hstarts
    generalize name ++ (gap ++ '(' :: more) = rest at htrim
    have hline := takeWhile_append_trimStart line
    rw [htrim] at hline hstart
    have hsize : Text.offsetOf line ('@' :: rest) = byteSize (line.takeWhile isBlank) := by
      rw [← Text.offsetOf_append (line.takeWhile isBlank) ('@' :: rest), hline]
    -- In front of the at sign stand the lines above and the blanks of its own line.
    refine ⟨before.flatten ++ line.takeWhile isBlank, rest ++ behind.flatten, ?_, ?_⟩
    · rw [← flatten_fullLines header, hlines, List.flatten_append, List.flatten_cons,
        List.append_assoc, ← List.cons_append, ← List.append_assoc (line.takeWhile _), hline]
    · rw [← Option.some.inj hstart, hsize, hoffset, Nat.zero_add, byteSize_append]
  · cases hstart

/-- The name of a call stands behind the at sign, and its first parenthesis behind the name. -/
theorem callAt_eq (h : Call.start? header = some start) :
    callAt header start = some (Call.find header) ∧
      Located header (Call.StandsIn · header) (Call.find header) := by
  unfold callAt Call.find
  simp only [h, Option.bind_eq_bind]
  obtain ⟨front, rest, rfl, rfl⟩ := exists_of_start? h
  have hboundary := isBoundary_append front ('@' :: rest)
  have hwritten : cutFrom (byteSize front + 1) (front ++ '@' :: rest) = some rest :=
    cutFrom_next front '@' rest
  have hparts := List.takeWhile_append_dropWhile (p := isIdentChar) (l := rest)
  simp only [hwritten, dropBytes_of_cutFrom hwritten, Option.bind_some]
  -- From here on only the two parts matter, not how they are told apart.
  generalize rest.takeWhile isIdentChar = name at hparts ⊢
  generalize rest.dropWhile isIdentChar = tail at hparts ⊢
  subst hparts
  have hopening : front ++ '@' :: (name ++ tail) = front ++ ['@'] ++ name ++ tail := by simp
  have hsize : byteSize front + 1 + byteSize name = byteSize (front ++ ['@'] ++ name) := by
    simp only [byteSize_append]
    rfl
  rw [hopening, hsize, cutTo_append, cutFrom_append]
  simp only [Option.bind_some, indexOf?]
  cases hopen : breakOn? ['('] tail with
  | none => exact ⟨rfl, by rwa [hopening] at hboundary⟩
  | some found =>
    obtain ⟨before, after⟩ := found
    obtain rfl := append_of_breakOn? hopen
    have htext : front ++ ['@'] ++ name ++ (before ++ ['('] ++ after) =
        front ++ ['@'] ++ name ++ before ++ '(' :: after := by
      simp
    rw [hopening, htext] at hboundary
    simp only [Option.map_some]
    rw [htext, ← byteSize_append, closeFrom_eq, dropBytes_byteSize_append]
    simp only [Option.bind_some]
    cases hclose : matchingClose? ('(' :: after) with
    | none => exact ⟨rfl, hboundary⟩
    | some length =>
      obtain ⟨group, c, behind, hgroup, hclosing, rfl⟩ := exists_of_matchingClose? hclose
      -- The group is not empty, because the parenthesis that opens it does not close anything.
      cases group with
      | nil =>
        cases hgroup
        cases hclosing
      | cons d inner =>
        cases hgroup
        exact ⟨rfl, hboundary, _, inner, c, behind,
          (List.append_assoc _ ('(' :: inner) (c :: behind)).symm, hclosing, rfl,
          (Nat.add_assoc _ 1 _).symm⟩

theorem findCall_eq (header : List Char) :
    findCall header = some (Call.find header) ∧
      Located header (Call.StandsIn · header) (Call.find header) := by
  have hstart : startIn (locate 0 (fullLines header)) = some (Call.start? header) := startIn_eq _
  rw [findCall, hstart]
  cases h : Call.start? header with
  | none =>
    have hfind : Call.find header = .error (0, .noCall) := by
      unfold Call.find
      rw [h]
    rw [hfind]
    exact ⟨rfl, isBoundary_zero header⟩
  | some start => exact callAt_eq h

/-! ## The arguments -/

theorem arguments_eq {call : Call} (h : call.StandsIn header) :
    arguments call header = some (call.arguments header) ∧
      Located header (fun found => ∀ a ∈ found, a.value.StandsIn header) (call.arguments header) := by
  obtain ⟨-, before, inner, c, after, rfl, -, hopen, hclose⟩ := h
  -- The interior of the call is the slice between its brackets, and what stands in it stands in the
  -- header.
  have htext : before ++ '(' :: inner ++ c :: after = before ++ ['('] ++ inner ++ c :: after := by
    simp
  have hstart : call.openAt + 1 = byteSize (before ++ ['(']) := by
    rw [hopen, byteSize_append]
    rfl
  have hinner : call.inner (before ++ ['('] ++ inner ++ c :: after) = inner := by
    rw [Call.inner, hclose, hstart, sliceBytes_append]
  have hlocated := located_splitArguments inner
  rw [htext, arguments, Call.arguments, hinner, hclose, hstart, cut_append]
  simp only [Option.bind_eq_bind, Option.bind_some, splitArguments_eq]
  cases hsplit : Cookbook.splitArguments inner with
  | error offset =>
    rw [hsplit] at hlocated
    exact ⟨rfl, IsBoundary.within hlocated _ _⟩
  | ok found =>
    rw [hsplit] at hlocated
    refine ⟨rfl, List.forall_mem_map.mpr fun a ha => ?_⟩
    exact (hlocated a ha).within _ _

end Checked

end Cookbook
