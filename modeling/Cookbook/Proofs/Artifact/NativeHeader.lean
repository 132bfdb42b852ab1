import Cookbook.Artifact.Header
import Cookbook.Proofs.Text.Lines

/-!
# Native headers

A native artifact has one line that decorates the recipe and, below it, one line at which the
payload function begins. Its header is what stands from the one to the other.

## Main definitions

* `IsForeign`: the lines that introduce nothing.
* `NativeSite`: the lines of a native artifact, cut at the two introducers.

## Main results

* `isDecoratorLine_iff`, `isPayloadLine_iff`: the form of the two introducers.
* `findNative_eq_ok_iff`: a header is found exactly if the lines can be cut like this, and it is
  the header of the cut.
-/

namespace Cookbook.Header

open Cookbook.Text

variable {introducers : Introducers} {line text : List Char}

/-! ## The form of the introducers -/

theorem afterBlanks_iff {p : List Char → Bool} : afterBlanks p text = true ↔
    ∃ blanks rest, text = blanks ++ rest ∧ (∀ c ∈ blanks, isBlank c = true) ∧ p rest = true := by
  -- The test is made here, or behind a blank.
  induction text with
  | nil =>
    rw [afterBlanks]
    constructor
    · exact fun h => ⟨[], [], rfl, by simp, h⟩
    · rintro ⟨blanks, rest, htext, -, h⟩
      rwa [(List.append_eq_nil_iff.mp htext.symm).2] at h
  | cons c text ih =>
    rw [afterBlanks, Bool.or_eq_true, Bool.and_eq_true, ih]
    constructor
    · rintro (h | ⟨hc, blanks, rest, rfl, hblanks, h⟩)
      · exact ⟨[], c :: text, rfl, by simp, h⟩
      · exact ⟨c :: blanks, rest, rfl, List.forall_mem_cons.mpr ⟨hc, hblanks⟩, h⟩
    · rintro ⟨blanks, rest, htext, hblanks, h⟩
      cases blanks with
      | nil => exact .inl (by rwa [htext, List.nil_append])
      | cons d blanks =>
        obtain ⟨rfl, rfl⟩ := List.cons.inj htext
        rw [List.forall_mem_cons] at hblanks
        exact .inr ⟨hblanks.1, blanks, rest, rfl, hblanks.2, h⟩

theorem afterText_iff {word : List Char} {p : List Char → Bool} :
    afterText word p text = true ↔ ∃ rest, text = word ++ rest ∧ p rest = true := by
  unfold afterText
  constructor
  · intro h
    split at h
    · next rest hrest => exact ⟨rest, eq_append_of_isPrefixOf? hrest, h⟩
    · cases h
  · rintro ⟨rest, rfl, h⟩
    rwa [isPrefixOf?_append]

theorem afterSomeBlanks_iff {p : List Char → Bool} : afterSomeBlanks p text = true ↔
    ∃ blanks rest, text = blanks ++ rest ∧ blanks ≠ [] ∧ (∀ c ∈ blanks, isBlank c = true) ∧
      p rest = true := by
  cases text with
  | nil =>
    refine iff_of_false (by simp [afterSomeBlanks]) ?_
    rintro ⟨blanks, rest, htext, hne, -⟩
    exact hne (List.append_eq_nil_iff.mp htext.symm).1
  | cons c text =>
    rw [afterSomeBlanks, Bool.and_eq_true, afterBlanks_iff]
    constructor
    · rintro ⟨hc, blanks, rest, rfl, hblanks, h⟩
      exact ⟨c :: blanks, rest, rfl, List.cons_ne_nil _ _,
        List.forall_mem_cons.mpr ⟨hc, hblanks⟩, h⟩
    · rintro ⟨blanks, rest, htext, hne, hblanks, h⟩
      obtain ⟨d, blanks, rfl⟩ := List.exists_cons_of_ne_nil hne
      obtain ⟨rfl, rfl⟩ := List.cons.inj htext
      rw [List.forall_mem_cons] at hblanks
      exact ⟨hblanks.1, blanks, rest, rfl, hblanks.2, h⟩

theorem atParenthesis_iff : atParenthesis text = true ↔ ∃ rest, text = '(' :: rest := by
  rw [atParenthesis, beq_iff_eq, List.head?_eq_some_iff]

/-- A decorator line is an at sign, the decorator's name and an opening parenthesis, with blanks in
front of the first and of the last. -/
theorem isDecoratorLine_iff : isDecoratorLine introducers line = true ↔
    ∃ blanks gap more,
      line = blanks ++ '@' :: (introducers.decorator.toList ++ (gap ++ '(' :: more)) ∧
        (∀ c ∈ blanks, isBlank c = true) ∧ ∀ c ∈ gap, isBlank c = true := by
  simp only [isDecoratorLine, afterBlanks_iff, afterText_iff, atParenthesis_iff]
  constructor
  · rintro ⟨blanks, _, rfl, hblanks, _, rfl, gap, _, rfl, hgap, more, rfl⟩
    exact ⟨blanks, gap, more, by rw [List.cons_append], hblanks, hgap⟩
  · rintro ⟨blanks, gap, more, rfl, hblanks, hgap⟩
    exact ⟨blanks, _, rfl, hblanks, _, rfl, gap, _, rfl, hgap, more, rfl⟩

/-- A payload line is the word `def`, the payload's name and an opening parenthesis, with blanks
between the first two, and with or without blanks elsewhere. -/
theorem isPayloadLine_iff : isPayloadLine introducers line = true ↔
    ∃ blanks space gap more,
      line = blanks ++ ("def".toList ++ (space ++ (introducers.payload.toList ++
        (gap ++ '(' :: more)))) ∧
        (∀ c ∈ blanks, isBlank c = true) ∧ space ≠ [] ∧ (∀ c ∈ space, isBlank c = true) ∧
          ∀ c ∈ gap, isBlank c = true := by
  simp only [isPayloadLine, afterBlanks_iff, afterText_iff, afterSomeBlanks_iff, atParenthesis_iff]
  constructor
  · rintro ⟨blanks, _, rfl, hblanks, _, rfl, space, _, rfl, hne, hspace, _, rfl, gap, _, rfl, hgap,
      more, rfl⟩
    exact ⟨blanks, space, gap, more, rfl, hblanks, hne, hspace, hgap⟩
  · rintro ⟨blanks, space, gap, more, rfl, hblanks, hne, hspace, hgap⟩
    exact ⟨blanks, _, rfl, hblanks, _, rfl, space, _, rfl, hne, hspace, _, rfl, gap, _, rfl, hgap,
      more, rfl⟩

/-- No line introduces both. -/
theorem isPayloadLine_of_isDecoratorLine (h : isDecoratorLine introducers line = true) :
    isPayloadLine introducers line = false := by
  rw [Bool.eq_false_iff, ne_eq, isPayloadLine_iff]
  rintro ⟨blanks', space, gap', more', hline, hblanks', -⟩
  obtain ⟨blanks, gap, more, rfl, hblanks, -⟩ := isDecoratorLine_iff.mp h
  -- The two begin with different characters, once the blanks are left out.
  have htrim := congrArg trimStart hline
  rw [trimStart_append_cons hblanks (by decide)] at htrim
  have hfirst := htrim.trans (trimStart_append_cons hblanks' (by decide))
  exact absurd (List.cons.inj hfirst).1 (by decide)

/-! ## Where the introducers stand -/

/-- A line that introduces nothing. -/
def IsForeign (introducers : Introducers) (line : List Char) : Prop :=
  isDecoratorLine introducers line = false ∧ isPayloadLine introducers line = false

instance (introducers : Introducers) (line : List Char) : Decidable (IsForeign introducers line) :=
  inferInstanceAs (Decidable (_ ∧ _))

section linesWhere

variable {p : List Char → Bool} {number start : Nat} {lines : List (List Char)}

theorem linesWhere_eq_nil_iff :
    linesWhere p number (locate start lines) = [] ↔ ∀ line ∈ lines, p line = false := by
  induction lines generalizing number start with
  | nil => simp [locate, linesWhere]
  | cons line lines ih =>
    rw [locate, linesWhere, List.forall_mem_cons]
    cases hp : p line with
    | true => simp
    | false => simpa using ih

/-- Exactly one line is found if the lines before and behind it are not. -/
theorem linesWhere_eq_singleton_iff {found : Nat × Nat} :
    linesWhere p number (locate start lines) = [found] ↔
      ∃ before line behind, lines = before ++ line :: behind ∧ p line = true ∧
        (∀ other ∈ before ++ behind, p other = false) ∧
        found = (number + before.length, start + byteSize before.flatten) := by
  -- If the first line is found, it is the only one and nothing stands before it. If not, it is one
  -- of the lines before.
  induction lines generalizing number start with
  | nil => simp [locate, linesWhere]
  | cons first lines ih =>
    rw [locate, linesWhere]
    cases hp : p first with
    | true =>
      rw [if_pos rfl, List.cons.injEq, linesWhere_eq_nil_iff]
      constructor
      · rintro ⟨rfl, hnone⟩
        exact ⟨[], first, lines, rfl, hp, hnone, rfl⟩
      · rintro ⟨before, line, behind, hlines, hline, hother, rfl⟩
        cases before with
        | nil =>
          obtain ⟨rfl, rfl⟩ := List.cons.inj hlines
          exact ⟨rfl, hother⟩
        | cons second before =>
          obtain ⟨rfl, -⟩ := List.cons.inj hlines
          rw [hother first (by simp)] at hp
          cases hp
    | false =>
      rw [if_neg Bool.false_ne_true, ih]
      constructor
      · rintro ⟨before, line, behind, rfl, hline, hother, rfl⟩
        refine ⟨first :: before, line, behind, rfl, hline, ?_, ?_⟩
        · exact List.forall_mem_cons.mpr ⟨hp, hother⟩
        · simp only [List.length_cons, List.flatten_cons, byteSize_append, Prod.mk.injEq]
          omega
      · rintro ⟨before, line, behind, hlines, hline, hother, rfl⟩
        cases before with
        | nil =>
          obtain ⟨rfl, -⟩ := List.cons.inj hlines
          rw [hline] at hp
          cases hp
        | cons second before =>
          obtain ⟨rfl, rfl⟩ := List.cons.inj hlines
          refine ⟨before, line, behind, rfl, hline, (List.forall_mem_cons.mp hother).2, ?_⟩
          simp only [List.length_cons, List.flatten_cons, byteSize_append, Prod.mk.injEq]
          omega

end linesWhere

/-! ## The cut -/

theorem find_native (text : List Char) (introducers : Introducers) :
    find text .native introducers = findNative text introducers :=
  rfl

/-- The lines of a native artifact, cut at the line that decorates the recipe and at the line at
which the payload function begins. -/
structure NativeSite (introducers : Introducers) where
  above : List (List Char)
  decorated : List Char
  between : List (List Char)
  payload : List Char
  below : List (List Char)
  isDecorator : isDecoratorLine introducers decorated = true
  isPayload : isPayloadLine introducers payload = true
  isForeign : ∀ line ∈ above ++ between ++ below, IsForeign introducers line

namespace NativeSite

/-- All lines, in order. -/
def lines (site : NativeSite introducers) : List (List Char) :=
  site.above ++ site.decorated :: (site.between ++ site.payload :: site.below)

/-- The text from the decorator up to the payload function. -/
def interior (site : NativeSite introducers) : List Char :=
  (site.decorated :: site.between).flatten

/-- The text from the payload function on. -/
def source (site : NativeSite introducers) : List Char :=
  (site.payload :: site.below).flatten

/-- The header of the artifact. -/
def header (site : NativeSite introducers) : Header where
  start := byteSize site.above.flatten
  stop := byteSize site.above.flatten + byteSize site.interior
  bodyStart := byteSize site.above.flatten + byteSize site.interior
  interior := site.interior
  interiorLine := site.above.length + 1

variable {site : NativeSite introducers}

theorem flatten_lines (site : NativeSite introducers) :
    site.lines.flatten = site.above.flatten ++ site.interior ++ site.source := by
  simp [lines, interior, source]

theorem eq_append (h : fullLines text = site.lines) :
    text = site.above.flatten ++ site.interior ++ site.source := by
  rw [← site.flatten_lines, ← h, flatten_fullLines]

theorem isBoundary_bodyStart (h : fullLines text = site.lines) :
    IsBoundary text site.header.bodyStart :=
  ⟨site.above.flatten ++ site.interior, site.source, eq_append h, by
    rw [byteSize_append]; rfl⟩

theorem dropBytes_bodyStart (h : fullLines text = site.lines) :
    dropBytes site.header.bodyStart text = site.source := by
  have hsize : site.header.bodyStart = byteSize (site.above.flatten ++ site.interior) := by
    rw [byteSize_append]
    rfl
  rw [eq_append h, hsize, dropBytes_byteSize_append]

end NativeSite

/-- Of two lines of a text, the one that starts earlier stands above the other. -/
theorem exists_between {above behind before below : List (List Char)} {first second : List Char}
    (hlines : above ++ first :: behind = before ++ second :: below) (hne : first ≠ second)
    (hsecond : second ≠ []) (horder : byteSize above.flatten ≤ byteSize before.flatten) :
    ∃ between, before = above ++ first :: between ∧ behind = between ++ second :: below := by
  rcases List.append_eq_append_iff.mp hlines with
    ⟨between, rfl, hbehind⟩ | ⟨between, rfl, hbehind⟩
  · cases between with
    | nil => exact absurd (List.cons.inj hbehind).1 hne
    | cons other between =>
      obtain ⟨rfl, rfl⟩ := List.cons.inj hbehind
      exact ⟨between, rfl, rfl⟩
  · cases between with
    | nil => exact absurd (List.cons.inj hbehind).1.symm hne
    | cons other between =>
      -- Then the second line would start before the first.
      obtain ⟨rfl, -⟩ := List.cons.inj hbehind
      obtain ⟨c, rest, rfl⟩ := List.exists_cons_of_ne_nil hsecond
      have hpos := c.utf8Size_pos
      simp only [List.flatten_append, List.flatten_cons, byteSize_append, byteSize_cons] at horder
      omega

theorem exists_site {header : Header} (h : findNative text introducers = .ok header) :
    ∃ site : NativeSite introducers, fullLines text = site.lines ∧ header = site.header := by
  unfold findNative at h
  dsimp only at h
  split at h
  · next number start payloadNumber bodyStart hdecorators hpayloads =>
    split at h
    · cases h
    · next horder =>
      cases h
      -- Both introducers are found on exactly one line each, so the lines are cut in two ways.
      obtain ⟨above, decorated, behind, hlines, hdecorated, hothers, hstart⟩ :=
        linesWhere_eq_singleton_iff.mp hdecorators
      obtain ⟨before, payload, below, hlines', hpayload, hothers', hbody⟩ :=
        linesWhere_eq_singleton_iff.mp hpayloads
      obtain ⟨rfl, rfl⟩ := Prod.mk.inj hstart
      obtain ⟨rfl, rfl⟩ := Prod.mk.inj hbody
      -- No line is both, and the payload comes second by the order that was checked.
      have hne : decorated ≠ payload := by
        rintro rfl
        rw [isPayloadLine_of_isDecoratorLine hdecorated] at hpayload
        cases hpayload
      have hmem : payload ∈ fullLines text := by simp [hlines']
      have hpayload_ne : payload ≠ [] := ne_nil_of_mem_fullLines hmem
      obtain ⟨between, rfl, rfl⟩ :=
        exists_between (hlines.symm.trans hlines') hne hpayload_ne (by omega)
      let site : NativeSite introducers :=
        { above, decorated, between, payload, below, isDecorator := hdecorated
          isPayload := hpayload
          isForeign := fun line hline => ⟨hothers line (by grind), hothers' line (by grind)⟩ }
      refine ⟨site, hlines, ?_⟩
      -- The header is sliced from behind the lines above up to the payload.
      have hsize : byteSize (above ++ decorated :: between).flatten =
          byteSize above.flatten + byteSize site.interior := by
        rw [List.flatten_append, byteSize_append]
        rfl
      rw [Nat.zero_add, Nat.zero_add, Nat.add_comm 1, hsize, site.eq_append hlines,
        sliceBytes_append]
      rfl
  · cases h

namespace NativeSite

variable {site : NativeSite introducers}

/-- The lines of a native artifact determine its header. -/
theorem findNative_eq (h : fullLines text = site.lines) :
    findNative text introducers = .ok site.header := by
  -- Around the decorator only the payload is not foreign, and no line is both.
  have hdecorators : linesWhere (isDecoratorLine introducers) 1 (locate 0 (fullLines text)) =
      [(1 + site.above.length, 0 + byteSize site.above.flatten)] := by
    refine linesWhere_eq_singleton_iff.mpr
      ⟨site.above, site.decorated, _, h, site.isDecorator, fun other hother => ?_, rfl⟩
    by_cases hother' : other = site.payload
    · rw [hother', Bool.eq_false_iff]
      intro hdecorator
      have hpayload := isPayloadLine_of_isDecoratorLine hdecorator
      rw [site.isPayload] at hpayload
      cases hpayload
    · exact (site.isForeign other (by grind)).1
  have hpayloads : linesWhere (isPayloadLine introducers) 1 (locate 0 (fullLines text)) =
      [(1 + (site.above ++ site.decorated :: site.between).length,
        0 + byteSize (site.above ++ site.decorated :: site.between).flatten)] := by
    refine linesWhere_eq_singleton_iff.mpr ⟨site.above ++ site.decorated :: site.between,
      site.payload, site.below, by rw [h, lines]; simp, site.isPayload, fun other hother => ?_, rfl⟩
    by_cases hother' : other = site.decorated
    · rw [hother']
      exact isPayloadLine_of_isDecoratorLine site.isDecorator
    · exact (site.isForeign other (by grind)).2
  have hsize : byteSize (site.above ++ site.decorated :: site.between).flatten =
      byteSize site.above.flatten + byteSize site.interior := by
    rw [List.flatten_append, byteSize_append]
    rfl
  -- The payload stands behind the decorator, as the reader checks.
  unfold findNative
  simp only [hdecorators, hpayloads, Nat.zero_add, hsize]
  rw [if_neg (by omega), eq_append h, sliceBytes_append, Nat.add_comm 1]
  rfl

end NativeSite

/-- The header of a native artifact is found exactly if its lines can be cut at the introducers. -/
theorem findNative_eq_ok_iff {header : Header} : findNative text introducers = .ok header ↔
    ∃ site : NativeSite introducers, fullLines text = site.lines ∧ header = site.header := by
  constructor
  · exact exists_site
  · rintro ⟨site, hlines, rfl⟩
    exact site.findNative_eq hlines

end Cookbook.Header
