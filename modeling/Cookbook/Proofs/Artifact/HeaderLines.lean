import Cookbook.Proofs.Artifact.KeptLiterals
import Cookbook.Proofs.Artifact.NativeHeader
import Cookbook.Proofs.Except

/-!
# The lines of a header

The interior of a header is a copy of some text of the artifact in which lines may have lost their
comment signs. No line is added or dropped, and what is left of a line is its end. So each place in
the interior belongs to a place in the artifact, on a line of the same number from the start of the
header on.

## Main definitions

* `Encloses`: what stands in front of the text that a header is read from, and what follows it.
* `SamePlace`: two texts, one of which may lack the start of lines, are cut at the same place.

## Main results

* `exists_raw`: the text that a header is read from, and the offsets of the header.
* `exists_samePlace`: the places in lines, and those in the lines of which they are the ends.
* `find_lines`: the lines of an interior are those of the artifact.
-/

namespace Cookbook.Header

open Cookbook.Text Cookbook.Body

variable {introducers : Introducers} {dialect : Dialect} {header : Header}
  {text front raw back above below rawAbove rawBelow : List Char} {lines raws : List (List Char)}

/-! ## The text of a header -/

/-- A header is read from what stands between the lines that introduce the recipe and its payload, or
between the opening marker and the first closing one. -/
inductive Encloses (introducers : Introducers) :
    Dialect → List Char → List Char → List Char → Prop where
  | native (site : NativeSite introducers) (h : fullLines site.lines.flatten = site.lines) :
      Encloses introducers .native site.above.flatten site.interior site.source
  | marked {dialect : Dialect} {opening closing : String} {raw payload : List Char}
      (hmarkers : dialect.markers? = some (opening, closing))
      (hfirst : breakOn? closing.toList (raw ++ closing.toList ++ payload) = some (raw, payload)) :
      Encloses introducers dialect opening.toList raw (closing.toList ++ payload)

/-- The interior that is read from a text. -/
def interiorFrom (dialect : Dialect) (raw : List Char) : List Char :=
  if dialect.commentsHeader then stripComments raw else raw

theorem not_mem_opening {opening closing : String}
    (h : dialect.markers? = some (opening, closing)) : '\n' ∉ opening.toList := by
  cases dialect <;> cases h <;> decide

/-- A header between two markers. -/
def ofMarked (opening closing : String) (comments : Bool) (raw : List Char) : Header :=
  let stop := opening.utf8ByteSize + byteSize raw + closing.utf8ByteSize
  ⟨0, stop, stop, if comments then stripComments raw else raw, 1⟩

/-- A header is found between the markers exactly if the text can be cut at them, at the first
closing one. -/
theorem findMarked_eq_ok_iff {opening closing : String} {comments : Bool} :
    findMarked text opening closing comments = .ok header ↔
      ∃ raw payload, text = opening.toList ++ (raw ++ closing.toList ++ payload) ∧
        breakOn? closing.toList (raw ++ closing.toList ++ payload) = some (raw, payload) ∧
        header = ofMarked opening closing comments raw := by
  unfold findMarked
  constructor
  · intro h
    split at h
    · cases h
    · next inside hinside =>
      split at h
      · cases h
      · next raw payload hbreak =>
        -- The first closing marker behind the opening one cuts the text.
        have hraw := append_of_breakOn? hbreak
        cases h
        exact ⟨raw, payload, hraw ▸ eq_append_of_isPrefixOf? hinside, hraw ▸ hbreak, rfl⟩
  · rintro ⟨raw, payload, rfl, hbreak, rfl⟩
    rw [isPrefixOf?_append]
    simp only [hbreak]
    rfl

/-- A header is read from one part of the text, and its offsets bound that part. -/
theorem exists_raw (h : find text dialect introducers = .ok header) :
    ∃ front raw back, text = front ++ raw ++ back ∧ Encloses introducers dialect front raw back ∧
      header.interior = interiorFrom dialect raw ∧ header.interiorLine = 1 + lineFeeds front ∧
      header.start ≤ header.stop ∧ header.stop = header.bodyStart ∧
      header.bodyStart ≤ byteSize text := by
  unfold find at h
  split at h
  · next hmarkers =>
    obtain rfl : dialect = .native := by cases dialect <;> first | rfl | cases hmarkers
    -- The lines above the decorator stand in front, and its interior ends with the line of the
    -- payload.
    obtain ⟨site, hlines, rfl⟩ := exists_site h
    have htext := site.eq_append hlines
    have habove : lineFeeds site.above.flatten = site.above.length :=
      lineFeeds_flatten (isLine_of_fullLines hlines)
    refine ⟨site.above.flatten, site.interior, site.source, htext, .native site ?_, rfl, ?_,
      Nat.le_add_right _ _, rfl, ?_⟩
    · rw [site.flatten_lines, ← htext, hlines]
    · rw [habove, Nat.add_comm]
      rfl
    · rw [htext, byteSize_append, byteSize_append]
      exact Nat.le_add_right _ _
  · next opening closing hmarkers =>
    -- The interior stands between the markers, the first of which is on one line.
    obtain ⟨raw, payload, rfl, hbreak, rfl⟩ := findMarked_eq_ok_iff.mp h
    refine ⟨opening.toList, raw, closing.toList ++ payload, by simp, .marked hmarkers hbreak, rfl, ?_,
      Nat.zero_le _, rfl, ?_⟩
    · rw [lineFeeds_of_not_mem (not_mem_opening hmarkers)]
      rfl
    · simp only [ofMarked, byteSize_append, byteSize_toList]
      omega

/-! ## Lines that have lost something in front -/

theorem stripComment_suffix (line : List Char) : stripComment line <:+ line := by
  have htrim : trimStart line <:+ line := List.dropWhile_suffix _
  unfold stripComment
  split
  · next rest heq => exact ((List.suffix_append ['#', ' '] rest).trans (heq ▸ htrim) :)
  · next rest _ heq => exact ((List.suffix_cons '#' rest).trans (heq ▸ htrim) :)
  · exact List.suffix_rfl

theorem splitLines_stripComments (raw : List Char) :
    splitLines (stripComments raw) = (splitLines raw).map stripComment := by
  refine splitLines_joinLines (by simpa using splitLines_ne_nil raw) fun line hline => ?_
  obtain ⟨full, hfull, rfl⟩ := List.mem_map.mp hline
  exact fun hmem => lineFeed_not_mem_of_mem_splitLines hfull
    ((stripComment_suffix full).subset hmem)

/-- The lines of an interior are the ends of the lines that it is read from. -/
theorem splitLines_interiorFrom (dialect : Dialect) (raw : List Char) :
    List.Forall₂ (· <:+ ·) (splitLines (interiorFrom dialect raw)) (splitLines raw) := by
  unfold interiorFrom
  split
  · rw [splitLines_stripComments, List.forall₂_map_left_iff]
    exact List.forall₂_same.mpr fun line _ => stripComment_suffix line
  · exact List.forall₂_same.mpr fun line _ => List.suffix_rfl

/-! ## Places on lines -/

/-- Two texts are cut at the same place: line by line what stands above it in the one is the end of
what stands above it in the other, and behind it their lines are the same. -/
structure SamePlace (above below rawAbove rawBelow : List Char) : Prop where
  lines : List.Forall₂ (· <:+ ·) (splitLines above) (splitLines rawAbove)
  topLine_eq : topLine below = topLine rawBelow

/-- The same place is on a line of the same number. -/
theorem SamePlace.lineFeeds_eq (h : SamePlace above below rawAbove rawBelow) :
    lineFeeds above = lineFeeds rawAbove := by
  have hlength := h.lines.length_eq
  rw [length_splitLines, length_splitLines] at hlength
  omega

theorem topLine_append (h : topLine below = topLine rawBelow) (front : List Char) :
    topLine (front ++ below) = topLine (front ++ rawBelow) := by
  induction front with
  | nil => exact h
  | cons c front ih =>
    by_cases hc : c = '\n'
    · subst hc
      rw [List.cons_append, List.cons_append, topLine_lineFeed, topLine_lineFeed]
    · rw [List.cons_append, List.cons_append, topLine_cons hc, topLine_cons hc, ih]

/-- A place on a line of which something is lost in front. -/
theorem SamePlace.of_suffix (habove : above <:+ rawAbove) (hraw : '\n' ∉ rawAbove)
    (h : topLine below = topLine rawBelow) : SamePlace above below rawAbove rawBelow where
  lines := by
    rw [splitLines_of_not_mem hraw, splitLines_of_not_mem fun hmem => hraw (habove.subset hmem)]
    exact .cons habove .nil
  topLine_eq := h

/-- A place below a line of which something is lost in front. -/
theorem SamePlace.behind_line {line raw : List Char} (h : SamePlace above below rawAbove rawBelow)
    (hline : line <:+ raw) (hraw : '\n' ∉ raw) :
    SamePlace (line ++ '\n' :: above) below (raw ++ '\n' :: rawAbove) rawBelow where
  lines := by
    rw [splitLines_append, splitLines_append, splitLines_of_not_mem hraw,
      splitLines_of_not_mem fun hmem => hraw (hline.subset hmem)]
    exact .cons hline h.lines
  topLine_eq := h.topLine_eq

/-- A place in a text is one on its first line, or one below. -/
theorem cut_line {line rest : List Char} (h : line ++ '\n' :: rest = above ++ below) :
    (∃ behind, line = above ++ behind ∧ below = behind ++ '\n' :: rest) ∨
      ∃ tail, above = line ++ '\n' :: tail ∧ rest = tail ++ below := by
  rcases List.append_eq_append_iff.mp h with ⟨tail, rfl, hbelow⟩ | ⟨behind, hline, hbelow⟩
  · cases tail with
    | nil => exact .inl ⟨[], by rw [List.append_nil, List.append_nil], hbelow.symm⟩
    | cons c tail =>
      obtain ⟨rfl, hrest⟩ := List.cons.inj hbelow
      exact .inr ⟨tail, rfl, hrest⟩
  · exact .inl ⟨behind, hline, hbelow⟩

/-- A place on a line is a place in front of the same end of the longer line, and a place below is
one on the lines below. -/
theorem exists_samePlace (h : List.Forall₂ (· <:+ ·) lines raws) (hraws : ∀ raw ∈ raws, '\n' ∉ raw)
    (hlines : joinLines lines = above ++ below) :
    ∃ rawAbove rawBelow, joinLines raws = rawAbove ++ rawBelow ∧
      SamePlace above below rawAbove rawBelow := by
  -- A place is on the first line or on one below. What the first line has lost in front stands
  -- before the place in either case.
  induction h generalizing above with
  | nil =>
    obtain ⟨rfl, rfl⟩ := List.append_eq_nil_iff.mp hlines.symm
    exact ⟨[], [], rfl, .of_suffix List.suffix_rfl List.not_mem_nil rfl⟩
  | @cons line raw lines raws hsuffix htails ih =>
    rw [List.forall_mem_cons] at hraws
    cases htails with
    | nil =>
      obtain ⟨lost, rfl⟩ := hsuffix
      obtain rfl : line = above ++ below := hlines
      refine ⟨lost ++ above, below, (List.append_assoc ..).symm,
        .of_suffix (List.suffix_append _ _) (fun hmem => hraws.1 ?_) rfl⟩
      exact List.append_assoc lost above below ▸ List.mem_append_left _ hmem
    | @cons next nextRaw lines raws hnext htails =>
      rcases cut_line hlines with ⟨behind, rfl, rfl⟩ | ⟨tail, rfl, htail⟩
      · obtain ⟨lost, rfl⟩ := hsuffix
        refine ⟨lost ++ above, behind ++ '\n' :: joinLines (nextRaw :: raws), by simp [joinLines],
          .of_suffix (List.suffix_append _ _) (fun hmem => hraws.1 ?_) (topLine_append ?_ behind)⟩
        · exact List.append_assoc lost above behind ▸ List.mem_append_left _ hmem
        · rw [topLine_lineFeed, topLine_lineFeed]
      · obtain ⟨rawAbove, rawBelow, hraw, hplace⟩ := ih hraws.2 htail
        exact ⟨raw ++ '\n' :: rawAbove, rawBelow, by simp [joinLines, hraw],
          hplace.behind_line hsuffix hraws.1⟩

/-- What is read from an artifact as its header stands on the lines of the artifact that
`Header.lineAt` tells. -/
theorem find_lines (h : find text dialect introducers = .ok header) :
    header.start ≤ header.stop ∧ header.stop ≤ header.bodyStart ∧
    header.bodyStart ≤ byteSize text ∧
    ∃ front raw back, text = front ++ raw ++ back ∧ Encloses introducers dialect front raw back ∧
      List.Forall₂ (· <:+ ·) (splitLines header.interior) (splitLines raw) ∧
      (dialect.commentsHeader = false → header.interior = raw) ∧
      ∀ above below, header.interior = above ++ below →
        ∃ rawAbove rawBelow, raw = rawAbove ++ rawBelow ∧ SamePlace above below rawAbove rawBelow ∧
          header.lineAt (byteSize above) = 1 + lineFeeds (front ++ rawAbove) := by
  obtain ⟨front, raw, back, htext, hencloses, hinterior, hline, hstart, hstop, hbody⟩ :=
    exists_raw h
  have hlines : List.Forall₂ (· <:+ ·) (splitLines header.interior) (splitLines raw) :=
    hinterior ▸ splitLines_interiorFrom dialect raw
  refine ⟨hstart, hstop.le, hbody, front, raw, back, htext, hencloses, hlines, ?_, ?_⟩
  · intro hplain
    rw [hinterior, interiorFrom, hplain, if_neg Bool.false_ne_true]
  · intro above below hcut
    -- The cut is carried over line by line, and line feeds are counted above it on either side.
    obtain ⟨rawAbove, rawBelow, hraw, hplace⟩ := exists_samePlace hlines
      (fun line hmem => lineFeed_not_mem_of_mem_splitLines hmem)
      ((joinLines_splitLines header.interior).trans hcut)
    refine ⟨rawAbove, rawBelow, (joinLines_splitLines raw).symm.trans hraw, hplace, ?_⟩
    rw [lineAt, hcut, takeBytes_byteSize_append, hline, lineFeeds_append, hplace.lineFeeds_eq,
      Nat.add_assoc]

/-- A header with blanks of several kinds in front of its comment signs, and without some of them. -/
def spaced : List Char :=
  "###+ # first\n\u2003#second\r\n\t# # third\nplain\n###+\nbody".toList

/-- What is read from it. -/
def spacedHeader : Header :=
  ⟨0, 46, 46, "first\nsecond\r\n# third\nplain\n".toList, 1⟩

theorem find_lines_spaced : find spaced .shell .default = .ok spacedHeader ∧
    ∃ front raw back rawAbove rawBelow, spaced = front ++ raw ++ back ∧
      raw = rawAbove ++ rawBelow ∧ topLine rawBelow = "third".toList ∧
      lineFeeds (front ++ rawAbove) = 2 ∧ spacedHeader.lineAt 16 = 3 := by
  have hfind : find spaced .shell .default = .ok spacedHeader :=
    eq_ok_of_toOption (by decide +kernel)
  obtain ⟨-, -, -, front, raw, back, htext, -, -, -, hplaces⟩ := find_lines hfind
  obtain ⟨rawAbove, rawBelow, hraw, hplace, hline⟩ :=
    hplaces "first\nsecond\r\n# ".toList "third\nplain\n".toList rfl
  have hsame : topLine rawBelow = "third".toList := hplace.topLine_eq.symm
  have hthird : spacedHeader.lineAt 16 = 3 := by decide +kernel
  have hfeeds : 3 = 1 + lineFeeds (front ++ rawAbove) := hthird.symm.trans hline
  exact ⟨hfind, front, raw, back, rawAbove, rawBelow, htext, hraw, hsame, by omega, hthird⟩

end Cookbook.Header
