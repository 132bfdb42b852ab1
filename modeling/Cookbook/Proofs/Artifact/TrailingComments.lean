import Cookbook.Proofs.Artifact.HeaderLines
import Cookbook.Proofs.Artifact.MarkedHeader
import Cookbook.Proofs.Artifact.Soundness
import Cookbook.Proofs.Registration.TextBehind

/-!
# Comments behind a call

A comment that is put behind the call of a marked artifact, on the line on which the call ends,
changes neither where the header ends nor what the call declares nor the body nor the rules. The
entrypoint is another matter: where the header names it, the text behind the call on its line counts
as a line of its own, so the comment becomes the entrypoint unless a line below names one.

## Main definitions

* `Artifact.CallEnd`: the place in an artifact at which its call ends.
* `IsComment`: what may be put there.
* `CallEnd.NamedElsewhere`: the entrypoint does not come from the line on which the call ends.

## Main results

* `compile_commented`: what an artifact with such a comment compiles to.
* `comment_taken_for_entrypoint`: a comment that changes the recipe.
-/

namespace Cookbook

open Cookbook.Text Cookbook.Body

/-! ## Text put into a header -/

namespace Header

variable {introducers : Introducers} {dialect : Dialect} {opening closing : String} {c : Char}
  {word text comment blanks front raw back above below above' below' rawAbove rawBelow lower more
    payload : List Char}

/-- What is put behind a character that is neither blank nor a comment sign stays as it is. -/
theorem stripComment_append (hc : isBlank c = false) (hsign : c ≠ '#') (line more : List Char) :
    stripComment (line ++ c :: more) = stripComment (line ++ [c]) ++ more := by
  have htrim : ∀ rest, trimStart (line ++ c :: rest) = trimStart line ++ c :: rest := by
    intro rest
    induction line with
    | nil => simp [trimStart, hc]
    | cons d line ih =>
      by_cases hd : isBlank d = true
      · simpa [trimStart, hd] using ih
      · simp [trimStart, hd]
  have hspace : c ≠ ' ' := by
    rintro rfl
    cases hc
  unfold stripComment
  rw [htrim more, htrim []]
  -- What is stripped depends on two characters, of which `c` may be one, but never a sign or a space.
  rcases trimStart line with _ | ⟨d, _ | ⟨e, rest⟩⟩
  · simp [hsign]
  · by_cases hd : d = '#'
    · subst hd
      simp [hspace]
    · simp [hd]
  · by_cases hd : d = '#'
    · subst hd
      by_cases he : e = ' '
      · subst he
        simp
      · simp [he]
    · simp [hd]

theorem stripComments_append (hc : isBlank c = false) (hsign : c ≠ '#') (hmore : '\n' ∉ more)
    (front : List Char) :
    stripComments (front ++ c :: more) = stripComments (front ++ [c]) ++ more := by
  obtain ⟨lines, line, hlines⟩ := exists_splitLines_eq_concat front
  have hfeed : '\n' ≠ c := by
    rintro rfl
    cases hc
  have hlong := splitLines_append_of_not_mem hlines (List.not_mem_cons_of_ne_of_not_mem hfeed hmore)
  have hshort := splitLines_append_of_not_mem hlines
    (List.not_mem_cons_of_ne_of_not_mem hfeed List.not_mem_nil)
  rw [stripComments, stripComments, hlong, hshort, List.map_append, List.map_append,
    List.map_singleton, List.map_singleton, stripComment_append hc hsign, joinLines_concat_append]

theorem stripComments_append_lineFeed (front back : List Char) :
    stripComments (front ++ '\n' :: back) = stripComments front ++ '\n' :: stripComments back := by
  rw [stripComments, splitLines_append, List.map_append,
    joinLines_append (by simpa using splitLines_ne_nil front) (by simpa using splitLines_ne_nil back)]
  rfl

/-- The end of a line behind a character that is neither blank nor a comment sign is read as it
stands. -/
theorem interiorFrom_append (hc : isBlank c = false) (hsign : c ≠ '#') (hmore : '\n' ∉ more)
    (front lower : List Char) :
    interiorFrom dialect (front ++ c :: (more ++ '\n' :: lower)) =
      interiorFrom dialect (front ++ [c]) ++ (more ++ '\n' :: interiorFrom dialect lower) := by
  have hsplit : ∀ rest, front ++ c :: (more ++ rest) = front ++ c :: more ++ rest := by simp
  unfold interiorFrom
  split
  · rw [hsplit, stripComments_append_lineFeed, stripComments_append hc hsign hmore,
      List.append_assoc]
  · simp

/-- Texts are cut at the same place if as many lines and the same part of the line stand on either
side. -/
theorem cut_unique (h : above ++ below = above' ++ below')
    (hfeeds : lineFeeds above = lineFeeds above') (htop : topLine below = topLine below') :
    above = above' := by
  have hnil : ∀ {lost text : List Char}, lineFeeds lost = 0 → topLine (lost ++ text) = topLine text →
      lost = [] := by
    intro lost text hlost htop
    rw [topLine_append_of_not_mem (List.count_eq_zero.mp hlost)] at htop
    exact List.append_left_eq_self.mp htop
  -- Between two different places there is a line feed, or else more of the line on one side.
  rcases List.append_eq_append_iff.mp h with ⟨lost, rfl, rfl⟩ | ⟨lost, rfl, rfl⟩
  · rw [lineFeeds_append] at hfeeds
    rw [hnil (by omega) htop, List.append_nil]
  · rw [lineFeeds_append] at hfeeds
    rw [hnil (by omega) htop.symm, List.append_nil]

/-- Only one place in a text is the same as a place in another one. -/
theorem SamePlace.unique (h : SamePlace above below rawAbove rawBelow)
    (h' : SamePlace above' below' rawAbove rawBelow) (htext : above ++ below = above' ++ below') :
    above = above' :=
  cut_unique htext (h.lineFeeds_eq.trans h'.lineFeeds_eq.symm) (h.topLine_eq.trans h'.topLine_eq.symm)

/-- The same character stands in front of the same place. -/
theorem SamePlace.exists_concat (h : SamePlace (front ++ [c]) below rawAbove rawBelow)
    (hc : c ≠ '\n') : ∃ rawFront, rawAbove = rawFront ++ [c] := by
  obtain ⟨lines, line, hlines⟩ := exists_splitLines_eq_concat front
  obtain ⟨raws, raw, hraws⟩ := exists_splitLines_eq_concat rawAbove
  have hends := h.lines
  rw [splitLines_append_of_not_mem hlines (by simpa using hc.symm), hraws,
    ← List.forall₂_reverse_iff] at hends
  have hlast : line ++ [c] <:+ raw := by
    simp only [List.reverse_append, List.reverse_singleton, List.singleton_append] at hends
    exact (List.forall₂_cons.mp hends).1
  obtain ⟨lost, rfl⟩ := hlast
  refine ⟨joinLines (raws ++ [lost ++ line]), ?_⟩
  rw [← joinLines_concat_append, List.append_assoc, ← hraws, joinLines_splitLines]

/-! ## Markers -/

/-- There are no blanks in closing markers. -/
theorem closing_spec (h : dialect.markers? = some (opening, closing)) :
    closing.toList ≠ [] ∧ (∀ c ∈ closing.toList, isBlank c = false) ∧
      closing.toList ∈ ["###+".toList, "***/".toList] := by
  have hblank : ∀ word : List Char, word.all (!isBlank ·) = true → ∀ c ∈ word, isBlank c = false :=
    fun word h c hc => by simpa using List.all_eq_true.mp h c hc
  cases dialect <;> cases h <;> exact ⟨by decide, hblank _ (by decide), by decide⟩

/-- Blanks complete no word that has none. -/
theorem not_infix_append_blanks (hne : word ≠ []) (hword : ∀ c ∈ word, isBlank c = false)
    (hblanks : ∀ c ∈ blanks, isBlank c = true) (h : ¬word <:+: text) :
    ¬word <:+: text ++ blanks := by
  cases blanks with
  | nil => rwa [List.append_nil]
  | cons b blanks =>
    rw [List.forall_mem_cons] at hblanks
    have hb : b ∉ word := fun hmem => Bool.false_ne_true ((hword b hmem).symm.trans hblanks.1)
    intro hpart
    rcases infix_append_cons hb text hpart with hpart | hpart
    · exact h hpart
    · obtain ⟨c, hc⟩ := List.exists_mem_of_ne_nil word hne
      exact Bool.false_ne_true ((hword c hc).symm.trans (hblanks.2 c (hpart.subset hc)))

/-- A line with nothing but blanks ends before a word without blanks does. -/
theorem exists_blanks (hne : word ≠ []) (hword : ∀ c ∈ word, isBlank c = false)
    (h : ∀ c ∈ topLine (below ++ (word ++ payload)), isBlank c = true) :
    ∃ blanks lower, below = blanks ++ '\n' :: lower ∧ '\n' ∉ blanks ∧
      ∀ c ∈ blanks, isBlank c = true := by
  by_cases hmem : '\n' ∈ below
  · obtain ⟨blanks, lower, rfl, hfeed⟩ := List.eq_append_cons_of_mem hmem
    rw [List.append_assoc, List.cons_append, topLine_append_lineFeed hfeed] at h
    exact ⟨blanks, lower, rfl, hfeed, h⟩
  · obtain ⟨c, word, rfl⟩ := List.exists_cons_of_ne_nil hne
    have hc := hword c List.mem_cons_self
    have hfeed : c ≠ '\n' := by
      rintro rfl
      cases hc
    rw [topLine_append_of_not_mem hmem, List.cons_append, topLine_cons hfeed] at h
    exact absurd (h c (by simp)) (Bool.eq_false_iff.mp hc)

/-- A marker that is found is found behind a comment as well. -/
theorem breakOn?_commented (hne : word ≠ []) (hword : ∀ c ∈ word, isBlank c = false)
    (hblanks : ∀ c ∈ blanks, isBlank c = true) (hcomment : ¬word <:+: comment)
    (h : breakOn? word (above ++ (blanks ++ '\n' :: lower) ++ word ++ payload) =
      some (above ++ (blanks ++ '\n' :: lower), payload)) :
    breakOn? word (above ++ ' ' :: (comment ++ blanks ++ '\n' :: lower) ++ word ++ payload) =
      some (above ++ ' ' :: (comment ++ blanks ++ '\n' :: lower), payload) := by
  have hnot : ∀ c, isBlank c = true → c ∉ word := fun c hc hmem =>
    Bool.false_ne_true ((hword c hmem).symm.trans hc)
  have habove : ¬word <:+: above := fun hpart =>
    not_infix_of_breakOn? hne h (hpart.trans (List.prefix_append _ _).isInfix)
  -- A marker does not reach across the space in front of the comment.
  have hline : ¬word <:+: above ++ ' ' :: (comment ++ blanks) := by
    intro hpart
    rcases infix_append_cons (hnot ' ' rfl) above hpart with hpart | hpart
    · exact habove hpart
    · exact not_infix_append_blanks hne hword hblanks hcomment hpart
  -- So the search goes on at the end of the line in either text, and there both are the same.
  have hlower : breakOn? word (lower ++ word ++ payload) = some (lower, payload) := by
    have hsplit : above ++ (blanks ++ '\n' :: lower) ++ word ++ payload =
        above ++ blanks ++ '\n' :: (lower ++ word ++ payload) := by simp
    rw [hsplit, breakOn?_append_cons hne (hnot '\n' rfl)
      (not_infix_append_blanks hne hword hblanks habove), Option.map_eq_some_iff] at h
    obtain ⟨⟨before, after⟩, hfound, h⟩ := h
    simp only [Prod.mk.injEq, List.append_assoc, List.append_cancel_left_eq, List.cons.injEq,
      true_and] at h
    rw [hfound, h.1, h.2]
  have hsplit : above ++ ' ' :: (comment ++ blanks ++ '\n' :: lower) ++ word ++ payload =
      above ++ ' ' :: (comment ++ blanks) ++ '\n' :: (lower ++ word ++ payload) := by simp
  rw [hsplit, breakOn?_append_cons hne (hnot '\n' rfl) hline, hlower]
  simp

/-- Headers of marked artifacts stand between markers. -/
theorem Encloses.exists_markers (h : Encloses introducers dialect front raw back)
    (hmarked : dialect ≠ .native) :
    ∃ opening closing payload, dialect.markers? = some (opening, closing) ∧
      front = opening.toList ∧ back = closing.toList ++ payload ∧
      breakOn? closing.toList (raw ++ closing.toList ++ payload) = some (raw, payload) := by
  cases h with
  | native => exact absurd rfl hmarked
  | marked hmarkers hfirst => exact ⟨_, _, _, hmarkers, rfl, rfl, hfirst⟩

/-- The header between two markers, and what follows it. -/
theorem find_between (hmarkers : dialect.markers? = some (opening, closing))
    (hfirst : breakOn? closing.toList (raw ++ closing.toList ++ payload) = some (raw, payload))
    (htext : text = opening.toList ++ raw ++ (closing.toList ++ payload)) :
    ∃ header, find text dialect introducers = .ok header ∧
      header.interior = interiorFrom dialect raw ∧ dropBytes header.bodyStart text = payload := by
  have hsplit : text = opening.toList ++ (raw ++ closing.toList ++ payload) := by simp [htext]
  refine ⟨ofMarked opening closing dialect.commentsHeader raw, ?_, rfl, ?_⟩
  · rw [find_of_markers hmarkers]
    exact findMarked_eq_ok_iff.mpr ⟨raw, payload, hsplit, hfirst, rfl⟩
  · have hsize : (ofMarked opening closing dialect.commentsHeader raw).bodyStart =
        byteSize (opening.toList ++ raw ++ closing.toList) := by
      rw [byteSize_append, byteSize_append, byteSize_toList, byteSize_toList]
      rfl
    rw [hsize, htext, ← List.append_assoc, dropBytes_byteSize_append]

end Header

/-! ## Rules, wherever they stand -/

/-- Where a rule stands makes a difference for errors alone. -/
theorem Rule.compile_elsewhere {parameter : String} {text : List Char} {lineOf : Nat → Nat}
    {rule : Rule} (h : Rule.compile parameter text lineOf = .ok rule) (other : Nat → Nat) :
    Rule.compile parameter text other = .ok rule := by
  unfold Rule.compile at h ⊢
  dsimp only at h ⊢
  split at h
  · next hlambda =>
    rw [if_pos hlambda]
    split at h
    · split at h
      · exact h
      · cases h
    · cases h
  · cases h

theorem rulesOfEntries_elsewhere {lineOf : Nat → Nat} {base : Nat} {earlier : List String}
    {entries : List Entry} {rules : List Rule}
    (h : rulesOfEntries lineOf base earlier entries = .ok rules) (other : Nat → Nat) :
    rulesOfEntries other base earlier entries = .ok rules := by
  induction entries generalizing earlier rules with
  | nil => exact h
  | cons entry entries ih =>
    rw [rulesOfEntries] at h ⊢
    split at h
    · cases h
    · next hkey =>
      obtain ⟨rule, hrule, h⟩ := bind_eq_ok_iff.mp h
      obtain ⟨rest, hrest, h⟩ := bind_eq_ok_iff.mp h
      rw [if_neg hkey]
      exact bind_eq_ok_iff.mpr
        ⟨rule, Rule.compile_elsewhere hrule _, bind_eq_ok_iff.mpr ⟨rest, ih hrest, h⟩⟩

theorem compileRules_elsewhere {lineOf : Nat → Nat} {map : Segment} {rules : List Rule}
    (h : compileRules lineOf map = .ok rules) (other : Nat → Nat) :
    compileRules other map = .ok rules := by
  unfold compileRules at h ⊢
  split at h
  · cases h
  · exact rulesOfEntries_elsewhere h other

/-! ## The end of the call -/

theorem isBlank_of_isClosing {c : Char} (h : isClosing c = true) : isBlank c = false := by
  rcases eq_of_isClosing h with rfl | rfl | rfl <;> rfl

/-- A comment that may be put into a header. -/
structure IsComment (comment : List Char) : Prop where
  sign : comment.head? = some '#'
  noLineFeed : '\n' ∉ comment
  noMarker : ∀ marker ∈ ["###+".toList, "***/".toList], ¬marker <:+: comment

theorem IsComment.trim_ne_nil {comment : List Char} (h : IsComment comment) : trim comment ≠ [] := by
  intro hnil
  obtain ⟨front, back, hcomment, hfront, hback⟩ := surrounds_trim comment
  rw [hnil] at hcomment
  have hmem : '#' ∈ front ++ back := hcomment ▸ List.mem_of_mem_head? h.sign
  rcases List.mem_append.mp hmem with hmem | hmem
  · cases hfront _ hmem
  · cases hback _ hmem

namespace Artifact

open Header

/-- The place in an artifact at which the call in its header ends. -/
structure CallEnd (introducers : Introducers) (artifact : Artifact) where
  header : Header
  registration : Registration
  /-- What stands in front of the text of the header. -/
  opening : List Char
  /-- The text of the header up to the end of the call. -/
  above : List Char
  /-- The text of the header behind the call. -/
  below : List Char
  /-- What follows the text of the header. -/
  rest : List Char
  header_eq : Header.find artifact.text.toList artifact.dialect introducers = .ok header
  registration_eq : Registration.find header.interior = .ok registration
  text_eq : artifact.text.toList = opening ++ (above ++ below) ++ rest
  encloses : Encloses introducers artifact.dialect opening (above ++ below) rest
  place : SamePlace (takeBytes registration.stop header.interior)
    (dropBytes registration.stop header.interior) above below

variable {introducers : Introducers} {artifact : Artifact} {recipes : List Recipe}
  {comment blanks line lower : List Char}

namespace CallEnd

/-- The artifact with a space and a comment behind the call. -/
def commented (site : CallEnd introducers artifact) (comment : List Char) : Artifact :=
  { artifact with
    text := String.ofList
      (site.opening ++ (site.above ++ ' ' :: (comment ++ site.below)) ++ site.rest) }

/-- The entrypoint is that of the call, or that of the dialect, or a line below the call names it. -/
def NamedElsewhere (site : CallEnd introducers artifact) : Prop :=
  site.registration.settings.entrypoint ≠ none ∨
    artifact.dialect.namesEntrypointInHeader = false ∨
    lastLine? (dropBytes site.registration.stop site.header.interior) ≠ none

/-! ### The header with the comment -/

variable {site : CallEnd introducers artifact}

/-- A call ends with a closing bracket, both in what is read from the header and in the artifact. -/
theorem exists_bracket (site : CallEnd introducers artifact) :
    ∃ front rawFront c, isClosing c = true ∧
      takeBytes site.registration.stop site.header.interior = front ++ [c] ∧
      site.above = rawFront ++ [c] ∧ site.registration.stop = byteSize (front ++ [c]) ∧
      ∀ other, Registration.find (front ++ c :: other) = .ok site.registration := by
  obtain ⟨front, c, behind, hinterior, hclosing, hstop, hother⟩ :=
    Registration.exists_behind site.registration_eq
  have htake : takeBytes site.registration.stop site.header.interior = front ++ [c] := by
    rw [hstop, hinterior, List.append_cons front c behind, takeBytes_byteSize_append]
  have hfeed : c ≠ '\n' := by
    rintro rfl
    cases hclosing
  obtain ⟨rawFront, habove⟩ := (htake ▸ site.place).exists_concat hfeed
  exact ⟨front, rawFront, c, hclosing, htake, habove, hstop, hother⟩

/-- The markers around the header, and what is read between and behind them. -/
theorem exists_markers (site : CallEnd introducers artifact) (hmarked : artifact.dialect ≠ .native) :
    ∃ opening closing payload, artifact.dialect.markers? = some (opening, closing) ∧
      site.opening = opening.toList ∧ site.rest = closing.toList ++ payload ∧
      breakOn? closing.toList (site.above ++ site.below ++ closing.toList ++ payload) =
        some (site.above ++ site.below, payload) ∧
      site.header.interior = interiorFrom artifact.dialect (site.above ++ site.below) ∧
      dropBytes site.header.bodyStart artifact.text.toList = payload := by
  obtain ⟨opening, closing, payload, hmarkers, hopening, hrest, hfirst⟩ :=
    site.encloses.exists_markers hmarked
  have htext : artifact.text.toList =
      opening.toList ++ (site.above ++ site.below) ++ (closing.toList ++ payload) := by
    rw [site.text_eq, hopening, hrest]
  obtain ⟨header, hheader, hinterior, hpayload⟩ :=
    @find_between introducers artifact.dialect _ _ _ _ _ hmarkers hfirst htext
  obtain rfl := Except.ok.inj (site.header_eq.symm.trans hheader)
  exact ⟨opening, closing, payload, hmarkers, hopening, hrest, hfirst, hinterior, hpayload⟩

/-- Where only blanks stand behind the call, the interior is cut at its end into what is read from
above that place and what is read from below it. -/
theorem cut_interior (hmarked : artifact.dialect ≠ .native)
    (hbelow : site.below = blanks ++ '\n' :: lower) (hfeed : '\n' ∉ blanks) :
    takeBytes site.registration.stop site.header.interior =
        interiorFrom artifact.dialect site.above ∧
      dropBytes site.registration.stop site.header.interior =
        blanks ++ '\n' :: interiorFrom artifact.dialect lower := by
  obtain ⟨-, -, -, -, -, -, -, hinterior, -⟩ := site.exists_markers hmarked
  obtain ⟨-, rawFront, c, hbracket, -, habove, -, -⟩ := site.exists_bracket
  have hwhole := takeBytes_append_dropBytes site.registration.stop site.header.interior
  have hread : site.header.interior = interiorFrom artifact.dialect site.above ++
      (blanks ++ '\n' :: interiorFrom artifact.dialect lower) := by
    rw [hinterior, hbelow, habove, ← List.append_cons,
      interiorFrom_append (isBlank_of_isClosing hbracket) (of_isClosing hbracket).1 hfeed]
  -- The cut behind the call and the cut at the lines above give the same place, and there is only
  -- one.
  have hsame : SamePlace (interiorFrom artifact.dialect site.above)
      (blanks ++ '\n' :: interiorFrom artifact.dialect lower) site.above site.below := by
    refine ⟨splitLines_interiorFrom _ _, ?_⟩
    rw [hbelow, topLine_append_lineFeed hfeed, topLine_append_lineFeed hfeed]
  have hcut := site.place.unique hsame (hwhole.trans hread)
  exact ⟨hcut, List.append_cancel_left (hcut ▸ hwhole.trans hread)⟩

/-- With a comment behind the call there is the same payload behind the header, and the comment
stands behind the call in its interior as well. -/
theorem exists_commented (hmarked : artifact.dialect ≠ .native)
    (hblank : ∀ c ∈ topLine (site.below ++ site.rest), isBlank c = true)
    (hcomment : IsComment comment) :
    ∃ header blanks lower,
      Header.find (site.commented comment).text.toList artifact.dialect introducers = .ok header ∧
      '\n' ∉ blanks ∧ (∀ c ∈ blanks, isBlank c = true) ∧
      dropBytes site.registration.stop site.header.interior = blanks ++ '\n' :: lower ∧
      header.interior = takeBytes site.registration.stop site.header.interior ++
        (' ' :: (comment ++ blanks) ++ '\n' :: lower) ∧
      dropBytes header.bodyStart (site.commented comment).text.toList =
        dropBytes site.header.bodyStart artifact.text.toList := by
  obtain ⟨opening, closing, payload, hmarkers, hopening, hrest, hfirst, -, hpayload⟩ :=
    site.exists_markers hmarked
  obtain ⟨hne, hword, hclosing⟩ := closing_spec hmarkers
  -- The closing marker does not stand on the line of the call, so that line ends in the header.
  obtain ⟨blanks, lower, hbelow, hfeed, hblanks⟩ := exists_blanks hne hword (hrest ▸ hblank)
  obtain ⟨hcut, hdrop⟩ := cut_interior hmarked hbelow hfeed
  have hlonger := breakOn?_commented hne hword hblanks (hcomment.noMarker _ hclosing)
    (hbelow ▸ hfirst)
  have htext : (site.commented comment).text.toList = opening.toList ++
      (site.above ++ ' ' :: (comment ++ blanks ++ '\n' :: lower)) ++ (closing.toList ++ payload) := by
    rw [commented, String.toList_ofList, hopening, hrest, hbelow, List.append_assoc comment]
  obtain ⟨longer, hfind, hinterior, hbehind⟩ :=
    @find_between introducers artifact.dialect _ _ _ _ _ hmarkers hlonger htext
  refine ⟨longer, blanks, interiorFrom artifact.dialect lower, hfind, hfeed, hblanks, hdrop, ?_,
    hbehind.trans hpayload.symm⟩
  obtain ⟨-, rawFront, c, hbracket, -, habove, -, -⟩ := site.exists_bracket
  have hmore : '\n' ∉ ' ' :: (comment ++ blanks) := by
    simp [hcomment.noLineFeed, hfeed]
  have hraw : site.above ++ ' ' :: (comment ++ blanks ++ '\n' :: lower) =
      rawFront ++ c :: (' ' :: (comment ++ blanks) ++ '\n' :: lower) := by
    simp [habove]
  rw [hinterior, hraw, interiorFrom_append (isBlank_of_isClosing hbracket)
    (of_isClosing hbracket).1 hmore, hcut, habove]

end CallEnd

/-! ## Entrypoints -/

/-- The last line of a text is that of the lines below the first one, or else the first one. -/
theorem lastLine?_line (hline : '\n' ∉ line) (rest : List Char) :
    lastLine? (line ++ '\n' :: rest) =
      (lastLine? rest).or (if (trim line).isEmpty then none else some (trim line)) := by
  have htrim : trim (line ++ ['\n']) = trim line :=
    trim_append_blanks (by simp; rfl) line
  rw [lastLine?, fullLines_append_lineFeed hline, List.map_cons, htrim, List.filter_cons]
  split
  · next hempty =>
    rw [if_neg (by simpa using hempty), List.getLast?_cons]
    show some _ = (lastLine? rest).or _
    rw [lastLine?]
    cases List.getLast? _ <;> rfl
  · next hempty =>
    rw [if_pos (by simpa using hempty), Option.or_none]
    rfl

theorem lastLine?_blanks (hline : '\n' ∉ blanks) (hblanks : ∀ c ∈ blanks, isBlank c = true)
    (rest : List Char) : lastLine? (blanks ++ '\n' :: rest) = lastLine? rest := by
  have hnil : trim blanks = [] := trim_append_blanks hblanks []
  rw [lastLine?_line hline, hnil]
  exact Option.or_none

theorem lastLine?_comment (hcomment : IsComment comment) (hline : '\n' ∉ blanks)
    (hblanks : ∀ c ∈ blanks, isBlank c = true) (rest : List Char) :
    lastLine? (' ' :: (comment ++ blanks) ++ '\n' :: rest) =
      (lastLine? rest).or (some (trim comment)) := by
  have hfeed : '\n' ∉ ' ' :: (comment ++ blanks) := by
    simp [hcomment.noLineFeed, hline]
  have htrim : trim (' ' :: (comment ++ blanks)) = trim comment :=
    trim_append_blanks hblanks (' ' :: comment)
  rw [lastLine?_line hfeed, htrim, if_neg (by simpa using hcomment.trim_ne_nil)]

/-- The entrypoint that a header names is the last line behind the call, or else the last one of the
call. -/
theorem headerEntrypoint_eq (interior : List Char) (registration : Registration) :
    headerEntrypoint interior registration =
      String.ofList (((lastLine? (dropBytes registration.stop interior)).or
        (lastLine? (takeBytes registration.stop interior))).getD []) := by
  unfold headerEntrypoint
  dsimp only
  cases lastLine? (dropBytes registration.stop interior) <;> rfl

namespace CallEnd

variable {site : CallEnd introducers artifact} {interior : List Char}

theorem entrypoint_of_namedElsewhere (h : site.NamedElsewhere) (hmarked : artifact.dialect ≠ .native)
    (hline : ∀ line ∈ lastLine? (dropBytes site.registration.stop site.header.interior),
      lastLine? (dropBytes site.registration.stop interior) = some line) :
    entrypoint artifact.dialect introducers interior site.registration =
      entrypoint artifact.dialect introducers site.header.interior site.registration := by
  unfold entrypoint
  rw [if_neg hmarked, if_neg hmarked]
  rcases h with h | h | h
  · obtain ⟨name, hname⟩ := Option.ne_none_iff_exists'.mp h
    rw [hname]
  · rw [h]
    rfl
  · obtain ⟨line, hnamed⟩ := Option.ne_none_iff_exists'.mp h
    rw [headerEntrypoint_eq, headerEntrypoint_eq, hline line hnamed, hnamed]
    rfl

theorem entrypoint_of_not_namedElsewhere (h : ¬site.NamedElsewhere)
    (hmarked : artifact.dialect ≠ .native) (interior : List Char) :
    entrypoint artifact.dialect introducers interior site.registration =
      headerEntrypoint interior site.registration := by
  rw [NamedElsewhere, not_or, not_or, not_not, Bool.not_eq_false] at h
  unfold entrypoint
  rw [h.1, if_neg hmarked, h.2.1]
  rfl

end CallEnd

/-! ## Recipes -/

/-- The call of an artifact that compiles ends somewhere. -/
theorem nonempty_callEnd (h : compile introducers artifact = .ok recipes) :
    Nonempty (CallEnd introducers artifact) := by
  obtain ⟨header, registration, body, rules, hheader, hregistration, -⟩ := compile_inv h
  obtain ⟨opening, raw, rest, htext, hencloses, hinterior, -⟩ := exists_raw hheader
  obtain ⟨above, below, hraw, hplace⟩ := exists_samePlace
    (hinterior ▸ splitLines_interiorFrom artifact.dialect raw)
    (fun line hline => lineFeed_not_mem_of_mem_splitLines hline)
    ((joinLines_splitLines _).trans
      (takeBytes_append_dropBytes registration.stop header.interior).symm)
  rw [joinLines_splitLines] at hraw
  exact ⟨⟨header, registration, opening, above, below, rest, hheader, hregistration, hraw ▸ htext,
    hraw ▸ hencloses, hplace⟩⟩

/-- A compilation whose stages all end well. -/
theorem compile_of_stages {header : Header} {registration : Registration} {body : List Char}
    {rules : List Rule}
    (hheader : Header.find artifact.text.toList artifact.dialect introducers = .ok header)
    (hregistration : Registration.find header.interior = .ok registration)
    (hbody : Body.find artifact.text.toList header artifact.dialect = .ok body)
    (hrules : declaredRules header registration = .ok rules) :
    compile introducers artifact =
      .ok (registration.constraints.map
        (recipeOf introducers artifact header registration body rules)) := by
  rw [compile_of_findHeader hheader, Registration.parse, hregistration]
  simp only [bind, Except.bind, hbody, hrules]
  rfl

theorem declaredRules_elsewhere {header : Header} {registration : Registration} {rules : List Rule}
    (h : declaredRules header registration = .ok rules) (other : Header) :
    declaredRules other registration = .ok rules := by
  unfold declaredRules at h ⊢
  split at h
  · exact compileRules_elsewhere h _
  · exact h

/-- The recipe with another entrypoint. -/
def renamed (name : String) (recipe : Recipe) : Recipe :=
  { recipe with entrypoint := name }

theorem map_renamed_eq_self_iff {name other : String} (hne : recipes ≠ [])
    (h : ∀ recipe ∈ recipes, recipe.entrypoint = name) :
    recipes.map (renamed other) = recipes ↔ other = name := by
  constructor
  · intro hmap
    obtain ⟨recipe, rest, rfl⟩ := List.exists_cons_of_ne_nil hne
    have hfirst : renamed other recipe = recipe := (List.cons.inj hmap).1
    exact (congrArg Recipe.entrypoint hfirst).trans (h recipe List.mem_cons_self)
  · rintro rfl
    refine (List.map_congr_left fun recipe hrecipe => ?_).trans (List.map_id recipes)
    rw [renamed, ← h recipe hrecipe]
    rfl

/-- With a comment behind the call an artifact compiles to the same recipes, but for the entrypoint
that is read from the longer header. -/
theorem CallEnd.compile_renamed {site : CallEnd introducers artifact}
    (hmarked : artifact.dialect ≠ .native) (h : compile introducers artifact = .ok recipes)
    (hblank : ∀ c ∈ topLine (site.below ++ site.rest), isBlank c = true)
    (hcomment : IsComment comment) :
    ∃ interior blanks lower, '\n' ∉ blanks ∧ (∀ c ∈ blanks, isBlank c = true) ∧
      dropBytes site.registration.stop site.header.interior = blanks ++ '\n' :: lower ∧
      dropBytes site.registration.stop interior = ' ' :: (comment ++ blanks) ++ '\n' :: lower ∧
      (∀ recipe ∈ recipes, recipe.entrypoint =
        entrypoint artifact.dialect introducers site.header.interior site.registration) ∧
      compile introducers (site.commented comment) = .ok (recipes.map
        (renamed (entrypoint artifact.dialect introducers interior site.registration))) := by
  obtain ⟨header, registration, body, rules, hheader, hregistration, hbody, hrules, rfl⟩ :=
    compile_inv h
  obtain rfl := Except.ok.inj (hheader.symm.trans site.header_eq)
  obtain rfl := Except.ok.inj (hregistration.symm.trans site.registration_eq)
  -- Header, call, body and rules one after the other; only the rules ask where the header stands.
  obtain ⟨longer, blanks, lower, hfind, hfeed, hblanks, hdrop, hinterior, hpayload⟩ :=
    site.exists_commented hmarked hblank hcomment
  obtain ⟨front, -, c, -, htake, -, hstop, hother⟩ := site.exists_bracket
  rw [htake] at hinterior
  have hcall : Registration.find longer.interior = .ok site.registration := by
    rw [hinterior, ← List.append_cons]
    exact hother _
  have hbehind : dropBytes site.registration.stop longer.interior =
      ' ' :: (comment ++ blanks) ++ '\n' :: lower := by
    rw [hinterior, hstop, dropBytes_byteSize_append]
  have hsame : Body.find (site.commented comment).text.toList longer artifact.dialect = .ok body := by
    rw [Body.find_of_ne_native hmarked hpayload, ← Body.find_of_ne_native hmarked rfl]
    exact hbody
  refine ⟨longer.interior, blanks, lower, hfeed, hblanks, hdrop, hbehind, ?_, ?_⟩
  · exact List.forall_mem_map.mpr fun _ _ => rfl
  · rw [compile_of_stages hfind hcall hsame (declaredRules_elsewhere hrules longer), List.map_map]
    rfl

/-- A marked artifact that compiles has a call with an end. A comment behind the call, with nothing
but blanks between it and the end of the line, changes nothing where the entrypoint does not come
from that line. Where it does, the comment becomes the entrypoint, and nothing else changes. -/
theorem compile_commented (hmarked : artifact.dialect ≠ .native)
    (h : compile introducers artifact = .ok recipes) :
    Nonempty (CallEnd introducers artifact) ∧
    ∀ (site : CallEnd introducers artifact) (comment : List Char),
      (∀ c ∈ topLine (site.below ++ site.rest), isBlank c = true) → IsComment comment →
      (site.NamedElsewhere → compile introducers (site.commented comment) = .ok recipes) ∧
      (¬site.NamedElsewhere → compile introducers (site.commented comment) =
        .ok (recipes.map (renamed (String.ofList (trim comment))))) ∧
      (compile introducers (site.commented comment) = .ok recipes ↔ site.NamedElsewhere ∨
        lastLine? (takeBytes site.registration.stop site.header.interior) =
          some (trim comment)) := by
  refine ⟨nonempty_callEnd h, fun site comment hblank hcomment => ?_⟩
  obtain ⟨interior, blanks, lower, hfeed, hblanks, hdrop, hbehind, hname, hrun⟩ :=
    site.compile_renamed hmarked h hblank hcomment
  have hsame (other : String) :=
    @map_renamed_eq_self_iff recipes _ other (sound_of_compile h).ne_nil hname
  have hbelow : lastLine? (dropBytes site.registration.stop site.header.interior) =
      lastLine? lower := by
    rw [hdrop, lastLine?_blanks hfeed hblanks]
  have hcommented : lastLine? (dropBytes site.registration.stop interior) =
      (lastLine? lower).or (some (trim comment)) := by
    rw [hbehind, lastLine?_comment hcomment hfeed hblanks]
  by_cases hnamed : site.NamedElsewhere
  · -- What names the entrypoint still does so, since lines below the comment come before it.
    have hline : ∀ line ∈ lastLine? (dropBytes site.registration.stop site.header.interior),
        lastLine? (dropBytes site.registration.stop interior) = some line := by
      intro line hline
      rw [hcommented, ← hbelow, Option.mem_def.mp hline]
      rfl
    have hkept := hrun.trans (congrArg Except.ok
      ((hsame _).mpr (CallEnd.entrypoint_of_namedElsewhere hnamed hmarked hline)))
    exact ⟨fun _ => hkept, absurd hnamed, iff_of_true hkept (.inl hnamed)⟩
  · -- No line below names the entrypoint, so the comment comes before the last line of the call.
    have hnone : lastLine? lower = none := by
      rw [← hbelow]
      by_contra hne
      exact hnamed (.inr (.inr hne))
    have hafter : entrypoint artifact.dialect introducers interior site.registration =
        String.ofList (trim comment) := by
      rw [CallEnd.entrypoint_of_not_namedElsewhere hnamed hmarked, headerEntrypoint_eq, hcommented,
        hnone]
      rfl
    have hbefore : entrypoint artifact.dialect introducers site.header.interior site.registration =
        String.ofList ((lastLine? (takeBytes site.registration.stop site.header.interior)).getD [])
        := by
      rw [CallEnd.entrypoint_of_not_namedElsewhere hnamed hmarked, headerEntrypoint_eq, hbelow, hnone]
      rfl
    rw [hafter] at hrun
    refine ⟨fun h => absurd h hnamed, fun _ => hrun, ?_⟩
    rw [hrun, Except.ok.injEq, hsame, hbefore, String.ofList_inj, or_iff_right hnamed]
    have hne := hcomment.trim_ne_nil
    cases lastLine? (takeBytes site.registration.stop site.header.interior) with
    | none => simpa using hne
    | some line => simp [eq_comm]

/-- A header with blanks behind the call and a line below it that names the entrypoint. -/
def sorting : Artifact where
  text := "###+\n# @register(REG, [Sort, 'Order'])\t\r\n#  order\n###+\norder() \x7b sort; \x7d"
  dialect := .shell
  source := "sort.sh"

/-- The end of its call. -/
def sortingEnd : CallEnd .default sorting where
  header := ⟨0, 54, 54, "\n@register(REG, [Sort, 'Order'])\t\r\n order\n".toList, 1⟩
  registration := ⟨"register", ["Sort", "Order"], .none, 1, 32⟩
  opening := "###+".toList
  above := "\n# @register(REG, [Sort, 'Order'])".toList
  below := "\t\r\n#  order\n".toList
  rest := "###+\norder() \x7b sort; \x7d".toList
  header_eq := eq_ok_of_toOption (by decide +kernel)
  registration_eq := eq_ok_of_toOption (by decide +kernel)
  text_eq := by decide +kernel
  encloses := @Encloses.marked _ .shell "###+" "###+" _ "\norder() \x7b sort; \x7d".toList rfl
    (by decide +kernel)
  place := ⟨by decide +kernel, by decide +kernel⟩

/-- A header of which the call is the last line. -/
def makeDir : Artifact where
  text := "###+\n# @register(REG, MakeDir)\n###+\nmkdir -p \x7bpath\x7d\n"
  dialect := .shell
  source := "artifact"

/-- The end of its call. -/
def makeDirEnd : CallEnd .default makeDir where
  header := ⟨0, 35, 35, "\n@register(REG, MakeDir)\n".toList, 1⟩
  registration := ⟨"register", ["MakeDir"], .none, 1, 24⟩
  opening := "###+".toList
  above := "\n# @register(REG, MakeDir)".toList
  below := "\n".toList
  rest := "###+\nmkdir -p \x7bpath\x7d\n".toList
  header_eq := eq_ok_of_toOption (by decide +kernel)
  registration_eq := eq_ok_of_toOption (by decide +kernel)
  text_eq := by decide +kernel
  encloses := @Encloses.marked _ .shell "###+" "###+" _ "\nmkdir -p \x7bpath\x7d\n".toList rfl
    (by decide +kernel)
  place := ⟨by decide +kernel, by decide +kernel⟩

theorem isBlank_behind_sorting :
    ∀ c ∈ topLine (sortingEnd.below ++ sortingEnd.rest), isBlank c = true :=
  List.all_eq_true.mp (by decide +kernel)

theorem isBlank_behind_makeDir :
    ∀ c ∈ topLine (makeDirEnd.below ++ makeDirEnd.rest), isBlank c = true :=
  List.all_eq_true.mp (by decide +kernel)

theorem isComment_note : IsComment "# note".toList :=
  ⟨rfl, by decide +kernel, by decide +kernel⟩

theorem compile_commented_samples :
    (∃ recipes, compile .default sorting = .ok recipes ∧ sortingEnd.NamedElsewhere ∧
      compile .default (sortingEnd.commented "# note".toList) = .ok recipes) ∧
    ∃ recipes, compile .default makeDir = .ok recipes ∧ ¬makeDirEnd.NamedElsewhere ∧
      compile .default (makeDirEnd.commented "# note".toList) =
        .ok (recipes.map (renamed "# note")) := by
  have hcompiles : ∀ {artifact}, (compile .default artifact).toOption.isSome = true →
      ∃ recipes, compile .default artifact = .ok recipes := by
    intro artifact h
    obtain ⟨recipes, h⟩ := Option.isSome_iff_exists.mp h
    exact ⟨recipes, eq_ok_of_toOption h⟩
  constructor
  -- Behind the call of the first sample stands a line that names the entrypoint.
  · obtain ⟨recipes, h⟩ := @hcompiles sorting (by decide +kernel)
    have hnamed : sortingEnd.NamedElsewhere := .inr (.inr (by decide +kernel))
    obtain ⟨hkept, -⟩ := (compile_commented (by decide) h).2 sortingEnd "# note".toList
      isBlank_behind_sorting isComment_note
    exact ⟨recipes, h, hnamed, hkept hnamed⟩
  -- Nothing but the call can name the entrypoint of the second sample, so the comment takes its
  -- place.
  · obtain ⟨recipes, h⟩ := @hcompiles makeDir (by decide +kernel)
    have hnamed : ¬makeDirEnd.NamedElsewhere := by
      rintro (h | h | h)
      · exact h rfl
      · cases h
      · exact h (by decide +kernel)
    obtain ⟨-, htaken, -⟩ := (compile_commented (by decide) h).2 makeDirEnd "# note".toList
      isBlank_behind_makeDir isComment_note
    have htrim : String.ofList (trim "# note".toList) = "# note" := by decide +kernel
    exact ⟨recipes, h, hnamed, htrim ▸ htaken hnamed⟩

theorem comment_taken_for_entrypoint :
    (∀ c ∈ topLine (makeDirEnd.below ++ makeDirEnd.rest), isBlank c = true) ∧
    IsComment "# note".toList ∧
    (compile .default makeDir).toOption.map (List.map (·.entrypoint)) =
      some ["@register(REG, MakeDir)"] ∧
    (compile .default (makeDirEnd.commented "# note".toList)).toOption.map
      (List.map (·.entrypoint)) = some ["# note"] ∧
    compile .default (makeDirEnd.commented "# note".toList) ≠ compile .default makeDir := by
  have hplain : (compile .default makeDir).toOption.map (List.map (·.entrypoint)) =
      some ["@register(REG, MakeDir)"] := by
    decide +kernel
  have hcommented : (compile .default (makeDirEnd.commented "# note".toList)).toOption.map
      (List.map (·.entrypoint)) = some ["# note"] := by
    decide +kernel
  refine ⟨isBlank_behind_makeDir, isComment_note, hplain, hcommented, fun heq => ?_⟩
  rw [heq, hplain] at hcommented
  exact absurd hcommented (by decide)

end Artifact

end Cookbook
