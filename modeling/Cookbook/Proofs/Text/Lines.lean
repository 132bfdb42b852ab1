import Cookbook.Text.Lines
import Cookbook.Text.Bytes
import Cookbook.Text.Search

/-!
# Texts made of lines

A text that ends in a line feed is made of complete lines, and whatever is put behind it starts on a
line of its own.

## Main definitions

* `IsLines`: the text is made of complete lines.

## Main results

* `fullLines_append`, `splitLines_append`: the lines of two texts one after the other.
* `splitLines_joinLines`: the lines of joined lines.
* `length_splitLines`: a text has one line more than line feeds.
* `breakOn?_lineFeed`: a word at the start of a line is found there.
* `dropBytes_add`, `dropBytes_append`: a cut in one of two texts one after the other.
-/

namespace Cookbook.Text

/-- Complete lines: the text is empty or ends in a line feed. -/
def IsLines (text : List Char) : Prop :=
  ∀ c ∈ text.getLast?, c = '\n'

variable {c : Char} {front back text line : List Char}

theorem isLines_iff : IsLines text ↔ text.getLast?.all (· == '\n') = true := by
  rw [IsLines]
  cases text.getLast? <;> simp

instance (text : List Char) : Decidable (IsLines text) :=
  decidable_of_iff _ isLines_iff.symm

/-! ## Complete lines -/

theorem isLines_nil : IsLines [] :=
  fun _ h => by cases h

/-- Complete lines without their first character are complete lines. -/
theorem IsLines.tail (h : IsLines (c :: text)) : IsLines text := by
  cases text with
  | nil => exact isLines_nil
  | cons d text =>
    intro e he
    exact h e (by rwa [List.getLast?_cons_cons])

/-- The end of complete lines is made of complete lines. -/
theorem IsLines.right (h : IsLines (front ++ back)) : IsLines back := by
  induction front with
  | nil => exact h
  | cons c front ih => exact ih h.tail

/-- Only a line feed can stand alone on complete lines. -/
theorem IsLines.ne_nil_of_ne (h : IsLines (c :: text)) (hc : c ≠ '\n') : text ≠ [] := by
  rintro rfl
  exact hc (h c rfl)

theorem IsLines.exists_eq_append (h : IsLines text) (hne : text ≠ []) :
    ∃ front, text = front ++ ['\n'] := by
  obtain ⟨front, c, rfl⟩ := List.eq_nil_or_concat text |>.resolve_left hne
  rw [List.concat_eq_append] at h ⊢
  exact ⟨front, by rw [h c (by simp)]⟩

/-! ## Lines with their line feeds -/

theorem fullLines_append_lineFeed (h : '\n' ∉ line) (rest : List Char) :
    fullLines (line ++ '\n' :: rest) = (line ++ ['\n']) :: fullLines rest := by
  induction line with
  | nil => rfl
  | cons c line ih =>
    rw [List.mem_cons, not_or] at h
    rw [List.cons_append, fullLines, if_neg (Ne.symm h.1), ih h.2]
    rfl

/-- A first line that a line feed alone ends. -/
theorem firstLine_append_lineFeed (h : '\n' ∉ line) (hreturn : ∀ c ∈ line.getLast?, c ≠ '\r')
    (rest : List Char) : firstLine (line ++ '\n' :: rest) = line := by
  rw [firstLine, fullLines_append_lineFeed h]
  dsimp only
  rw [List.reverse_append]
  cases hline : line.reverse with
  | nil => exact (List.reverse_eq_nil_iff.mp hline).symm
  | cons c front =>
    have hc : c ≠ '\r' := hreturn c (by rw [← List.head?_reverse, hline]; rfl)
    have hback : (c :: front).reverse = line := by rw [← hline, List.reverse_reverse]
    simpa [hc] using hback

theorem fullLines_eq_nil_iff : fullLines text = [] ↔ text = [] := by
  constructor
  · intro h
    rw [← flatten_fullLines text, h]
    rfl
  · rintro rfl
    rfl

/-- Behind complete lines other lines begin. -/
theorem fullLines_append (h : IsLines front) (back : List Char) :
    fullLines (front ++ back) = fullLines front ++ fullLines back := by
  induction front with
  | nil => rfl
  | cons c front ih =>
    rw [List.cons_append, fullLines, fullLines, ih h.tail]
    by_cases hc : c = '\n'
    · rw [if_pos hc, if_pos hc, List.cons_append]
    · rw [if_neg hc, if_neg hc]
      -- The line of this character goes on in the rest, which is not empty.
      cases hlines : fullLines front with
      | nil => exact absurd (fullLines_eq_nil_iff.mp hlines) (h.ne_nil_of_ne hc)
      | cons line lines => rfl

/-- No line is empty. -/
theorem ne_nil_of_mem_fullLines (h : line ∈ fullLines text) : line ≠ [] := by
  induction text generalizing line with
  | nil => cases h
  | cons c text ih =>
    rw [fullLines] at h
    split at h
    · rcases List.mem_cons.mp h with rfl | h
      · exact List.cons_ne_nil _ _
      · exact ih h
    · cases hlines : fullLines text with
      | nil =>
        rw [hlines] at h
        rw [List.mem_singleton.mp h]
        exact List.cons_ne_nil _ _
      | cons first lines =>
        rw [hlines] at h ih
        rcases List.mem_cons.mp h with rfl | h
        · exact List.cons_ne_nil _ _
        · exact ih (List.mem_cons_of_mem _ h)

/-- A line that a line feed ends. -/
def IsLine (line : List Char) : Prop :=
  ∃ body, '\n' ∉ body ∧ line = body ++ ['\n']

/-- All lines of a text but the last one are ended by line feeds. -/
theorem isLine_of_fullLines {lines others : List (List Char)}
    (h : fullLines text = lines ++ line :: others) : ∀ l ∈ lines, IsLine l := by
  induction text generalizing lines with
  | nil => simp [fullLines] at h
  | cons c text ih =>
    cases lines with
    | nil => simp
    | cons first lines =>
      rw [fullLines] at h
      split at h
      · next hc =>
        obtain ⟨rfl, hlines⟩ := List.cons.inj h
        exact List.forall_mem_cons.mpr ⟨⟨[], List.not_mem_nil, by rw [hc]; rfl⟩, ih hlines⟩
      · next hc =>
        cases htext : fullLines text with
        | nil => rw [htext] at h; simp at h
        | cons next nexts =>
          rw [htext] at h ih
          obtain ⟨rfl, hlines⟩ := List.cons.inj h
          -- The first line goes on in the rest of the text, and it ends there.
          have hrest : next :: nexts = (next :: lines) ++ line :: others :=
            congrArg (next :: ·) hlines
          obtain ⟨⟨body, hbody, rfl⟩, hbelow⟩ := List.forall_mem_cons.mp (ih hrest)
          refine List.forall_mem_cons.mpr ⟨⟨c :: body, ?_, rfl⟩, hbelow⟩
          rw [List.mem_cons, not_or]
          exact ⟨Ne.symm hc, hbody⟩

/-- Lines that line feeds end are the lines of the text that they make up. -/
theorem fullLines_flatten {lines : List (List Char)} (h : ∀ l ∈ lines, IsLine l) :
    fullLines lines.flatten = lines := by
  induction lines with
  | nil => rfl
  | cons line lines ih =>
    rw [List.forall_mem_cons] at h
    obtain ⟨body, hbody, rfl⟩ := h.1
    rw [List.flatten_cons, List.append_assoc, List.singleton_append,
      fullLines_append_lineFeed hbody, ih h.2]

/-- Only at its end a line has a line feed. -/
theorem not_mem_dropLast_of_mem_fullLines (h : line ∈ fullLines text) :
    '\n' ∉ line.dropLast := by
  induction text generalizing line with
  | nil => cases h
  | cons c text ih =>
    rw [fullLines] at h
    split at h
    -- A line feed is a line of its own, the last character of which it is.
    · rcases List.mem_cons.mp h with rfl | h
      · exact List.not_mem_nil
      · exact ih h
    · next hc =>
      cases hlines : fullLines text with
      | nil =>
        rw [hlines] at h
        rw [List.mem_singleton.mp h]
        exact List.not_mem_nil
      | cons first lines =>
        rw [hlines] at h
        have hmem : first ∈ fullLines text := hlines ▸ List.mem_cons_self
        rcases List.mem_cons.mp h with rfl | h
        -- The first line gets one more character in front; its last one stays the same.
        · rw [List.dropLast_cons_of_ne_nil (ne_nil_of_mem_fullLines hmem), List.mem_cons, not_or]
          exact ⟨Ne.symm hc, ih hmem⟩
        · exact ih (hlines ▸ List.mem_cons_of_mem _ h)

/-- Lines that line feeds end are texts without line feeds, each with one behind it. -/
theorem exists_bodies {lines : List (List Char)} (h : ∀ line ∈ lines, IsLine line) :
    ∃ bodies : List (List Char), lines = bodies.map (· ++ ['\n']) ∧
      ∀ body ∈ bodies, '\n' ∉ body := by
  induction lines with
  | nil => exact ⟨[], rfl, List.forall_mem_nil _⟩
  | cons line lines ih =>
    rw [List.forall_mem_cons] at h
    obtain ⟨body, hbody, rfl⟩ := h.1
    obtain ⟨bodies, rfl, hbodies⟩ := ih h.2
    exact ⟨body :: bodies, rfl, List.forall_mem_cons.mpr ⟨hbody, hbodies⟩⟩

/-! ## Lines without their line feeds -/

/-- A line feed separates lines. -/
theorem splitLines_append (front back : List Char) :
    splitLines (front ++ '\n' :: back) = splitLines front ++ splitLines back := by
  induction front with
  | nil => rfl
  | cons c front ih =>
    rw [List.cons_append, splitLines, splitLines, ih]
    by_cases hc : c = '\n'
    · rw [if_pos hc, if_pos hc, List.cons_append]
    · rw [if_neg hc, if_neg hc]
      cases hlines : splitLines front with
      | nil => exact absurd hlines (splitLines_ne_nil front)
      | cons line lines => rfl

theorem splitLines_of_not_mem (h : '\n' ∉ line) : splitLines line = [line] := by
  induction line with
  | nil => rfl
  | cons c line ih =>
    rw [List.mem_cons, not_or] at h
    rw [splitLines, if_neg (Ne.symm h.1), ih h.2]

theorem joinLines_append {lines others : List (List Char)} (hlines : lines ≠ [])
    (hothers : others ≠ []) :
    joinLines (lines ++ others) = joinLines lines ++ '\n' :: joinLines others := by
  induction lines with
  | nil => exact absurd rfl hlines
  | cons line lines ih =>
    cases lines with
    | nil =>
      cases others with
      | nil => exact absurd rfl hothers
      | cons other others => rfl
    | cons next lines =>
      show line ++ '\n' :: joinLines (next :: lines ++ others) = _
      rw [ih (List.cons_ne_nil _ _)]
      exact (List.append_assoc line ('\n' :: joinLines (next :: lines)) _).symm

/-- Lines that are joined are found again, if there are any. -/
theorem splitLines_joinLines {lines : List (List Char)} (hne : lines ≠ [])
    (h : ∀ line ∈ lines, '\n' ∉ line) : splitLines (joinLines lines) = lines := by
  induction lines with
  | nil => exact absurd rfl hne
  | cons line lines ih =>
    rw [List.forall_mem_cons] at h
    cases lines with
    | nil => exact splitLines_of_not_mem h.1
    | cons next lines =>
      show splitLines (line ++ '\n' :: joinLines (next :: lines)) = _
      rw [splitLines_append, splitLines_of_not_mem h.1, ih (List.cons_ne_nil _ _) h.2]
      rfl

/-- What is put behind the last line stands behind the joined lines. -/
theorem joinLines_concat_append (lines : List (List Char)) (line more : List Char) :
    joinLines (lines ++ [line ++ more]) = joinLines (lines ++ [line]) ++ more := by
  cases lines with
  | nil => rfl
  | cons first lines =>
    rw [joinLines_append (List.cons_ne_nil _ _) (List.cons_ne_nil _ _),
      joinLines_append (List.cons_ne_nil _ _) (List.cons_ne_nil _ _)]
    exact (List.append_assoc _ ('\n' :: line) more).symm

/-- Text without line feeds goes on the last line. -/
theorem splitLines_append_of_not_mem {lines : List (List Char)} {more : List Char}
    (h : splitLines text = lines ++ [line]) (hmore : '\n' ∉ more) :
    splitLines (text ++ more) = lines ++ [line ++ more] := by
  have htext : text ++ more = joinLines (lines ++ [line ++ more]) := by
    rw [joinLines_concat_append, ← h, joinLines_splitLines]
  have hlines : ∀ part ∈ lines ++ [line], '\n' ∉ part :=
    h ▸ fun _ => lineFeed_not_mem_of_mem_splitLines
  rw [htext]
  refine splitLines_joinLines (by simp) fun part hpart => ?_
  rcases List.mem_append.mp hpart with hpart | hpart
  · exact hlines part (List.mem_append_left _ hpart)
  · obtain rfl := List.mem_singleton.mp hpart
    rw [List.mem_append, not_or]
    exact ⟨hlines line (by simp), hmore⟩

/-- A text has a last line. -/
theorem exists_splitLines_eq_concat (text : List Char) :
    ∃ lines line, splitLines text = lines ++ [line] :=
  ⟨_, _, (List.dropLast_concat_getLast (splitLines_ne_nil text)).symm⟩

/-- Each of some lines stands in the text that they make up. -/
theorem infix_joinLines {lines : List (List Char)} (h : line ∈ lines) :
    line <:+: joinLines lines := by
  obtain ⟨above, below, rfl⟩ := List.append_of_mem h
  have hbelow : line <:+: joinLines (line :: below) := by
    cases below with
    | nil => exact List.infix_rfl
    | cons next below => exact (List.prefix_append _ _).isInfix
  cases above with
  | nil => exact hbelow
  | cons first above =>
    rw [joinLines_append (List.cons_ne_nil _ _) (List.cons_ne_nil _ _)]
    exact hbelow.trans ((List.suffix_cons _ _).trans (List.suffix_append _ _)).isInfix

/-! ## Numbers of lines -/

theorem lineFeeds_append (front back : List Char) :
    lineFeeds (front ++ back) = lineFeeds front + lineFeeds back :=
  List.count_append

theorem lineFeeds_of_not_mem (h : '\n' ∉ text) : lineFeeds text = 0 :=
  List.count_eq_zero.mpr h

/-- There are as many line feeds as lines that they end. -/
theorem lineFeeds_flatten {lines : List (List Char)} (h : ∀ line ∈ lines, IsLine line) :
    lineFeeds lines.flatten = lines.length := by
  induction lines with
  | nil => rfl
  | cons line lines ih =>
    rw [List.forall_mem_cons] at h
    obtain ⟨body, hbody, rfl⟩ := h.1
    rw [List.flatten_cons, lineFeeds_append, lineFeeds_append, lineFeeds_of_not_mem hbody, ih h.2,
      List.length_cons, Nat.zero_add, Nat.add_comm]
    rfl

theorem length_splitLines (text : List Char) : (splitLines text).length = lineFeeds text + 1 := by
  induction text with
  | nil => rfl
  | cons c text ih =>
    by_cases hc : c = '\n'
    · rw [splitLines, if_pos hc, List.length_cons, ih, lineFeeds, lineFeeds, hc,
        List.count_cons_self]
    · rw [splitLines, if_neg hc, lineFeeds, List.count_cons_of_ne hc]
      cases hlines : splitLines text with
      | nil => exact absurd hlines (splitLines_ne_nil text)
      | cons line lines => rwa [hlines] at ih

/-! ## Words on lines -/

variable {word : List Char}

/-- A word without a character does not reach across that character. -/
theorem prefix_of_append_cons (hc : c ∉ word) (front : List Char)
    (h : word <+: front ++ c :: back) : word <+: front := by
  induction front generalizing word with
  | nil =>
    cases word with
    | nil => exact List.nil_prefix
    | cons d word => exact absurd ((List.cons_prefix_cons.mp h).1 ▸ List.mem_cons_self) hc
  | cons d front ih =>
    cases word with
    | nil => exact List.nil_prefix
    | cons e word =>
      rw [List.cons_append, List.cons_prefix_cons] at h
      rw [List.mem_cons, not_or] at hc
      exact List.cons_prefix_cons.mpr ⟨h.1, ih hc.2 h.2⟩

theorem infix_append_cons (hc : c ∉ word) (front : List Char)
    (h : word <:+: front ++ c :: back) : word <:+: front ∨ word <:+: back := by
  induction front with
  | nil =>
    rcases List.infix_cons_iff.mp h with h | h
    · exact .inl (prefix_of_append_cons hc [] h).isInfix
    · exact .inr h
  | cons d front ih =>
    rcases List.infix_cons_iff.mp h with h | h
    · exact .inl (prefix_of_append_cons hc (d :: front) h).isInfix
    · exact (ih h).imp_left List.infix_cons

/-- A word without line feeds stands on one of the lines. -/
theorem exists_infix_of_joinLines {lines : List (List Char)} (hne : word ≠ []) (hline : '\n' ∉ word)
    (h : word <:+: joinLines lines) : ∃ line ∈ lines, word <:+: line := by
  induction lines with
  | nil => exact absurd (List.infix_nil.mp h) hne
  | cons first lines ih =>
    cases lines with
    | nil => exact ⟨first, List.mem_cons_self, h⟩
    | cons next lines =>
      rcases infix_append_cons hline first h with h | h
      · exact ⟨first, List.mem_cons_self, h⟩
      · obtain ⟨line, hmem, hpart⟩ := ih h
        exact ⟨line, List.mem_cons_of_mem _ hmem, hpart⟩

theorem isPrefixOf?_eq_none (h : ¬word <+: text) : word.isPrefixOf? text = none :=
  Option.eq_none_iff_forall_ne_some.mpr fun _ hafter =>
    h (eq_append_of_isPrefixOf? hafter ▸ List.prefix_append _ _)

theorem breakOn?_append (hne : word ≠ []) (rest : List Char) :
    breakOn? word (word ++ rest) = some ([], rest) := by
  cases word with
  | nil => exact absurd rfl hne
  | cons c word =>
    rw [List.cons_append, breakOn?, ← List.cons_append, isPrefixOf?_append]

/-- A word that is not contained in a text does not stand in it. -/
theorem not_infix_of_contains (h : contains word text = false) : ¬word <:+: text := by
  induction text with
  | nil =>
    intro hpart
    rw [List.infix_nil.mp hpart] at h
    cases h
  | cons c text ih =>
    rw [contains, breakOn?] at h
    intro hpart
    -- A part of the text starts it, and is found at once, or is a part of the rest.
    rcases List.infix_cons_iff.mp hpart with ⟨after, hstart⟩ | hpart
    · rw [← hstart, isPrefixOf?_append] at h
      cases h
    · refine ih ?_ hpart
      rw [contains]
      cases hbreak : breakOn? word text with
      | none => rfl
      | some found =>
        rw [hbreak] at h
        split at h <;> cases h

/-- What a search finds is the first occurrence. -/
theorem not_infix_of_breakOn? {before after : List Char} (hne : word ≠ [])
    (h : breakOn? word text = some (before, after)) : ¬word <:+: before := by
  have hnil : ¬word <:+: [] := fun hpart => hne (List.infix_nil.mp hpart)
  induction text generalizing before with
  | nil =>
    rw [breakOn?] at h
    split at h
    · cases h
      exact hnil
    · cases h
  | cons c text ih =>
    rw [breakOn?] at h
    split at h
    · cases h
      exact hnil
    · next hstart =>
      split at h
      · next first rest hrest =>
        cases h
        intro hpart
        -- An occurrence in what stands before starts with the first character, where the search
        -- would have stopped, or it is one in what stands before in the rest.
        rcases List.infix_cons_iff.mp hpart with ⟨tail, htail⟩ | hpart
        · have htext := congrArg (c :: ·) (append_of_breakOn? hrest)
          have hword : c :: text = word ++ (tail ++ word ++ after) := by
            rw [htext, List.append_assoc, ← List.cons_append, ← htail]
            simp
          rw [hword, isPrefixOf?_append] at hstart
          cases hstart
        · exact ih hrest hpart
      · cases h

/-- A search for a word goes on behind a character that is not in the word, if the word does not
stand in front of it. -/
theorem breakOn?_append_cons (hne : word ≠ []) (hc : c ∉ word) (h : ¬word <:+: front)
    (rest : List Char) : breakOn? word (front ++ c :: rest) =
      (breakOn? word rest).map fun found => (front ++ c :: found.1, found.2) := by
  induction front with
  | nil =>
    have hnone : ¬word <+: c :: rest := fun hstart =>
      hne (List.prefix_nil.mp (prefix_of_append_cons hc [] hstart))
    rw [List.nil_append, breakOn?, isPrefixOf?_eq_none hnone]
    cases breakOn? word rest <;> rfl
  | cons d front ih =>
    have hnone : ¬word <+: d :: front ++ c :: rest := fun hstart =>
      h (prefix_of_append_cons hc (d :: front) hstart).isInfix
    rw [List.cons_append, breakOn?, ← List.cons_append, isPrefixOf?_eq_none hnone,
      ih fun hpart => h (List.infix_cons hpart)]
    cases breakOn? word rest <;> rfl

/-- A word at the start of a line is found there, if it does not stand on the lines in front. -/
theorem breakOn?_lineFeed (hne : word ≠ []) (hline : '\n' ∉ word) (h : ¬word <:+: front)
    (rest : List Char) :
    breakOn? word (front ++ '\n' :: (word ++ rest)) = some (front ++ ['\n'], rest) := by
  rw [breakOn?_append_cons hne hline h, breakOn?_append hne]
  rfl

/-! ## Cuts -/

/-- A cut behind a text that stands in front. -/
theorem dropBytes_add (front : List Char) (offset : Nat) (back : List Char) :
    dropBytes (byteSize front + offset) (front ++ back) = dropBytes offset back := by
  induction front with
  | nil => rw [byteSize_nil, Nat.zero_add, List.nil_append]
  | cons c front ih =>
    rw [List.cons_append, byteSize_cons, dropBytes, if_pos (by omega), Nat.add_assoc,
      Nat.add_sub_cancel_left, ih]

/-- A cut in front of a text that stands behind. -/
theorem dropBytes_append {offset : Nat} (h : IsBoundary text offset) (back : List Char) :
    dropBytes offset (text ++ back) = dropBytes offset text ++ back := by
  obtain ⟨first, second, rfl, rfl⟩ := h
  rw [List.append_assoc, dropBytes_byteSize_append, dropBytes_byteSize_append]

end Cookbook.Text
