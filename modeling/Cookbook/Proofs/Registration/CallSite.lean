import Cookbook.Proofs.Registration.Values
import Cookbook.Proofs.Text.Lines

/-!
# Where a call stands

A call may follow lines of any kind in a header, as long as none of them begins with a call. It is
found at its at sign, and it ends with the parenthesis behind its arguments.

## Main definitions

* `BeginsCall`: the lines in front of which a call has to stand to be found.
* `CallStart`: what stands in front of the opening parenthesis of a call.
* `CallSite`: a header with a call in it.

## Main results

* `CallStart.find_opening`: a call is found by what stands up to its opening parenthesis.
* `CallSite.find_header`: the call of the header is found.
* `CallSite.inner_header`: what is found between its parentheses.
-/

namespace Cookbook

open Cookbook.Text

/-- ASCII letters, digits and underscores, at least one of them. -/
def IsWord (text : List Char) : Prop :=
  text ≠ [] ∧ ∀ c ∈ text, isIdentChar c = true

/-- A line that begins with an at sign, a name and an opening parenthesis, blanks aside. -/
def BeginsCall (line : List Char) : Prop :=
  ∃ blanks name gap more : List Char, line = blanks ++ '@' :: (name ++ (gap ++ '(' :: more)) ∧
    (∀ c ∈ blanks, isBlank c = true) ∧ IsWord name ∧ ∀ c ∈ gap, isBlank c = true

/-- Blanks within a line. -/
def IsIndent (text : List Char) : Prop :=
  ∀ c ∈ text, isBlank c = true ∧ c ≠ '\n'

/-- What stands in front of the opening parenthesis of a call: lines on which no call begins, and the
line on which the parenthesis opens. -/
structure CallStart where
  lines : List (List Char)
  indent : List Char
  name : List Char
  gap : List Char
  isLine : ∀ line ∈ lines, '\n' ∉ line
  earlier : ∀ line ∈ lines, ¬BeginsCall line
  isIndent : IsIndent indent
  isWord : IsWord name
  isGap : IsIndent gap

namespace CallStart

/-- The text in front of the at sign. -/
def before (site : CallStart) : List Char :=
  site.lines.flatMap (· ++ ['\n']) ++ site.indent

/-- The text in front of the opening parenthesis. -/
def opening (site : CallStart) : List Char :=
  site.before ++ '@' :: (site.name ++ site.gap)

end CallStart

/-- A header with a call in it: what stands in front of its opening parenthesis, and the rest from
there on. -/
structure CallSite extends CallStart where
  /-- The text between the parentheses. -/
  inner : List Char
  /-- The text after the closing parenthesis. -/
  after : List Char

namespace CallSite

/-- The whole header. -/
def header (site : CallSite) : List Char :=
  site.opening ++ '(' :: (site.inner ++ ')' :: site.after)

/-- The text of the call, from its at sign to its closing parenthesis. -/
def text (site : CallSite) : List Char :=
  '@' :: (site.name ++ site.gap) ++ '(' :: site.inner ++ [')']

/-- The call as it stands in the header. -/
def call (site : CallSite) : Call where
  name := String.ofList site.name
  start := byteSize site.before
  openAt := byteSize site.opening
  closeAt := byteSize (site.opening ++ '(' :: site.inner)

end CallSite

variable {line blanks name gap front text rest : List Char}

/-! ## Lines that begin with a call -/

/-- No blank and no parenthesis continues a name. -/
theorem isIdentChar_head?_gap (hgap : ∀ c ∈ gap, isBlank c = true) (rest : List Char) :
    ∀ c ∈ (gap ++ '(' :: rest).head?, isIdentChar c = false := by
  intro c hc
  cases hident : isIdentChar c with
  | false => rfl
  | true =>
    cases gap with
    | nil => cases hc; cases hident
    | cons d gap =>
      cases hc
      have hblank : isBlank c = true := hgap c List.mem_cons_self
      rw [isBlank_of_isIdentChar hident] at hblank
      cases hblank

theorem takeWhile_word (hname : IsWord name) (hgap : ∀ c ∈ gap, isBlank c = true)
    (rest : List Char) :
    (name ++ (gap ++ '(' :: rest)).takeWhile isIdentChar = name ∧
      (name ++ (gap ++ '(' :: rest)).dropWhile isIdentChar = gap ++ '(' :: rest :=
  takeWhile_append_of_boundary hname.2 (isIdentChar_head?_gap hgap rest)

/-- What a line starts with when its call is found. -/
theorem startsCall_iff : Call.startsCall text = true ↔ ∃ name gap more,
    text = '@' :: (name ++ (gap ++ '(' :: more)) ∧ IsWord name ∧ ∀ c ∈ gap, isBlank c = true := by
  constructor
  · intro h
    unfold Call.startsCall at h
    split at h
    · next rest =>
      rw [Bool.and_eq_true, beq_iff_eq, Bool.not_eq_true', List.isEmpty_eq_false_iff] at h
      obtain ⟨more, hmore⟩ := List.head?_eq_some_iff.mp h.2
      refine ⟨rest.takeWhile isIdentChar, (rest.dropWhile isIdentChar).takeWhile isBlank, more, ?_,
        ⟨h.1, List.all_eq_true.mp List.all_takeWhile⟩, List.all_eq_true.mp List.all_takeWhile⟩
      rw [← hmore, takeWhile_append_trimStart, List.takeWhile_append_dropWhile]
    · cases h
  · rintro ⟨name, gap, more, rfl, hname, hgap⟩
    obtain ⟨htake, hdrop⟩ := takeWhile_word hname hgap more
    have htrim : trimStart (gap ++ '(' :: more) = '(' :: more :=
      trimStart_append_cons hgap (by decide)
    simp [Call.startsCall, htake, hdrop, htrim, hname.1]

/-- A line begins with a call exactly if one is found there. -/
theorem beginsCall_iff : BeginsCall line ↔ Call.startsCall (trimStart line) = true := by
  rw [startsCall_iff]
  constructor
  · rintro ⟨blanks, name, gap, more, rfl, hblanks, hname, hgap⟩
    exact ⟨name, gap, more, trimStart_append_cons hblanks (by decide), hname, hgap⟩
  · rintro ⟨name, gap, more, htext, hname, hgap⟩
    refine ⟨line.takeWhile isBlank, name, gap, more, ?_, List.all_eq_true.mp List.all_takeWhile,
      hname, hgap⟩
    rw [← htext, takeWhile_append_trimStart]

instance : Decidable (BeginsCall line) :=
  decidable_of_iff _ beginsCall_iff.symm

/-- The line feed at its end does not make a line begin with a call. -/
theorem startsCall_trimStart (h : ¬BeginsCall line) :
    Call.startsCall (trimStart (line ++ ['\n'])) = false := by
  rw [Bool.eq_false_iff, ne_eq, ← beginsCall_iff]
  rintro ⟨blanks, name, gap, more, hline, hblanks, hname, hgap⟩
  apply h
  -- The line feed stands behind the parenthesis, so the line without it begins with a call too.
  rcases List.eq_nil_or_concat more with rfl | ⟨more, c, rfl⟩
  · have hlast := congrArg List.getLast? hline
    simp [List.getLast?_append, List.getLast?_cons] at hlast
  · have htext : line ++ ['\n'] = blanks ++ '@' :: (name ++ (gap ++ '(' :: more)) ++ [c] := by
      simpa using hline
    exact ⟨blanks, name, gap, more, (List.append_inj' htext rfl).1, hblanks, hname, hgap⟩

/-! ## Lines -/

/-- The first line starts with what stands in front of the first line feed. -/
theorem exists_fullLines_append (h : '\n' ∉ front) (hne : front ≠ []) (rest : List Char) :
    ∃ tail lines, fullLines (front ++ rest) = (front ++ tail) :: lines := by
  induction front with
  | nil => exact absurd rfl hne
  | cons c front ih =>
    rw [List.mem_cons, not_or] at h
    rw [List.cons_append, fullLines, if_neg (Ne.symm h.1)]
    cases front with
    | nil =>
      rw [List.nil_append]
      cases fullLines rest with
      | nil => exact ⟨[], [], rfl⟩
      | cons line lines => exact ⟨line, lines, rfl⟩
    | cons d front =>
      obtain ⟨tail, lines, hlines⟩ := ih h.2 (List.cons_ne_nil d front)
      exact ⟨tail, lines, by rw [hlines]; rfl⟩

/-- Lines in which nothing is found are passed over. -/
theorem findSome?_locate {α : Type} {find : Nat × List Char → Option α} {lines : List (List Char)}
    (hline : ∀ line ∈ lines, '\n' ∉ line)
    (hfind : ∀ line ∈ lines, ∀ offset, find (offset, line ++ ['\n']) = none) (offset : Nat) :
    (locate offset (fullLines (lines.flatMap (· ++ ['\n']) ++ rest))).findSome? find =
      (locate (offset + byteSize (lines.flatMap (· ++ ['\n']))) (fullLines rest)).findSome? find := by
  induction lines generalizing offset with
  | nil => rfl
  | cons line lines ih =>
    rw [List.forall_mem_cons] at hline hfind
    have htext : (line :: lines).flatMap (· ++ ['\n']) ++ rest =
        line ++ '\n' :: (lines.flatMap (· ++ ['\n']) ++ rest) := by simp
    rw [htext, fullLines_append_lineFeed hline.1, locate,
      List.findSome?_cons_of_isNone (by simp [hfind.1 offset]), ih hline.2 hfind.2,
      List.flatMap_cons, byteSize_append (line ++ ['\n']), Nat.add_assoc]

/-! ## Finding the call -/

namespace CallStart

/-- The first call is the one whose parenthesis opens here, whatever follows. -/
theorem start?_opening (site : CallStart) (rest : List Char) :
    Call.start? (site.opening ++ '(' :: rest) = some (byteSize site.before) := by
  have hheader : site.opening ++ '(' :: rest = site.lines.flatMap (· ++ ['\n']) ++
      ((site.indent ++ '@' :: (site.name ++ (site.gap ++ ['(']))) ++ rest) := by
    simp [opening, before]
  have hnofeed : '\n' ∉ site.indent ++ '@' :: (site.name ++ (site.gap ++ ['('])) := by
    have hindent : '\n' ∉ site.indent := fun h => (site.isIndent '\n' h).2 rfl
    have hname : '\n' ∉ site.name := fun h => absurd (site.isWord.2 '\n' h) (by decide)
    have hgap : '\n' ∉ site.gap := fun h => (site.isGap '\n' h).2 rfl
    simp [hindent, hname, hgap]
  -- The line of the call goes on behind the parenthesis, but all that is looked at stands before it.
  obtain ⟨tail, lines, hlines⟩ := exists_fullLines_append hnofeed (by simp) rest
  have hline : site.indent ++ '@' :: (site.name ++ (site.gap ++ ['('])) ++ tail =
      site.indent ++ '@' :: (site.name ++ (site.gap ++ '(' :: tail)) := by simp
  have htrim : trimStart (site.indent ++ '@' :: (site.name ++ (site.gap ++ ['('])) ++ tail) =
      '@' :: (site.name ++ (site.gap ++ '(' :: tail)) := by
    rw [hline]
    exact trimStart_append_cons (fun c hc => (site.isIndent c hc).1) (by decide)
  have hstarts : Call.startsCall ('@' :: (site.name ++ (site.gap ++ '(' :: tail))) = true :=
    startsCall_iff.mpr ⟨_, _, _, rfl, site.isWord, fun c hc => (site.isGap c hc).1⟩
  have hoffset : offsetOf (site.indent ++ '@' :: (site.name ++ (site.gap ++ ['('])) ++ tail)
      ('@' :: (site.name ++ (site.gap ++ '(' :: tail))) = byteSize site.indent := by
    rw [hline, offsetOf_append]
  rw [Call.start?, hheader, findSome?_locate site.isLine
    fun line hmem _ => if_neg (by simp [startsCall_trimStart (site.earlier line hmem)])]
  rw [hlines, locate, List.findSome?_cons]
  simp only [htrim, hstarts, if_true, hoffset, before, byteSize_append, Nat.zero_add]

/-- The call ends with the bracket that closes its parenthesis. -/
theorem find_opening (site : CallStart) (rest : List Char) :
    Call.find (site.opening ++ '(' :: rest) =
      match matchingClose? ('(' :: rest) with
      | none => .error (byteSize site.before, .unclosedCall (String.ofList site.name))
      | some length => .ok ⟨String.ofList site.name, byteSize site.before, byteSize site.opening,
          byteSize site.opening + length⟩ := by
  -- Behind the at sign stand the name, a gap and the parenthesis, each of which is found at its
  -- offset.
  have hname : dropBytes (byteSize site.before + 1) (site.opening ++ '(' :: rest) =
      site.name ++ (site.gap ++ '(' :: rest) := by
    have hsize : byteSize site.before + 1 = byteSize (site.before ++ ['@']) := by
      rw [byteSize_append]
      rfl
    have htext : site.opening ++ '(' :: rest =
        (site.before ++ ['@']) ++ (site.name ++ (site.gap ++ '(' :: rest)) := by
      simp [opening]
    rw [hsize, htext, dropBytes_byteSize_append]
  have hopen : byteSize site.before + 1 + byteSize site.name + byteSize site.gap =
      byteSize site.opening := by
    simp only [opening, byteSize_append, byteSize_cons, show '@'.utf8Size = 1 from rfl,
      Nat.add_assoc]
  have hbreak : breakOn? ['('] (site.gap ++ '(' :: rest) = some (site.gap, rest) :=
    breakOn?_of_not_mem (fun hmem => absurd (site.isGap '(' hmem).1 (by decide)) _
  obtain ⟨htake, hdrop⟩ := takeWhile_word site.isWord (fun c hc => (site.isGap c hc).1) rest
  rw [Call.find, start?_opening]
  cases hclose : matchingClose? ('(' :: rest) <;>
    simp only [hname, htake, hdrop, hbreak, hopen, hclose, dropBytes_byteSize_append]

end CallStart

namespace CallSite

variable (site : CallSite)

/-- The call of the header is found, if the scan passes over its arguments. -/
theorem find_header (h : Row false [] site.inner (')' :: site.after)) :
    Call.find site.header = .ok site.call := by
  -- From the parenthesis on the scan for its end meets a row and the closing parenthesis.
  have hcloses : matchingClose? ('(' :: (site.inner ++ ')' :: site.after)) =
      some (byteSize site.inner + 1) := matchingClose?_row (c := '(') rfl h
  have hfind := site.find_opening (site.inner ++ ')' :: site.after)
  rw [hcloses] at hfind
  refine hfind.trans (congrArg Except.ok ?_)
  have hsize : byteSize site.opening + (byteSize site.inner + 1) =
      byteSize (site.opening ++ '(' :: site.inner) := by
    rw [byteSize_append, byteSize_cons, show '('.utf8Size = 1 from rfl, Nat.add_comm 1]
  exact congrArg (Call.mk _ _ _) hsize

theorem slice_header :
    sliceBytes site.call.start (site.call.closeAt + 1) site.header = site.text := by
  have htext : site.header = site.before ++ site.text ++ site.after := by
    simp [header, CallStart.opening, text]
  have hstop : site.call.closeAt + 1 = byteSize site.before + byteSize site.text := by
    simp only [call, CallStart.opening, text, byteSize_append, byteSize_cons, byteSize_nil,
      show ')'.utf8Size = 1 from rfl]
    omega
  rw [htext, hstop]
  exact sliceBytes_append _ _ _

/-- What stands between the parentheses of the call. -/
theorem inner_header : site.call.inner site.header = site.inner := by
  have htext : site.header = (site.opening ++ ['(']) ++ site.inner ++ ')' :: site.after := by
    simp [header]
  have hstart : site.call.openAt + 1 = byteSize (site.opening ++ ['(']) := by
    rw [byteSize_append]
    rfl
  have hstop : site.call.closeAt = byteSize (site.opening ++ ['(']) + byteSize site.inner := by
    simp only [call, byteSize_append, byteSize_cons, byteSize_nil, Nat.add_zero, Nat.add_assoc]
  rw [Call.inner, hstart, hstop, htext]
  exact sliceBytes_append _ _ _

end CallSite

end Cookbook
