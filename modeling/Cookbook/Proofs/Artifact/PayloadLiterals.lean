import Cookbook.Proofs.Artifact.BlockLiterals
import Cookbook.Proofs.Except

/-!
# Literals of a payload

The triple-quoted literals that begin in the payload of a function are kept in its block. What can go
wrong is that a literal goes on below a suite, that blanks are trimmed on a line that opens a literal,
and that a literal in simple quotes goes on on the next line.

## Main definitions

* `payload?`: the signature and the lines of the payload of a function.
* `Payload.literals`: the triple-quoted literals that begin on these lines.

## Main results

* `Payload.suite_kept_iff`, `Payload.block_kept_iff`: which payloads keep their literals.
* `literals_kept_iff`: a function whose payload is tame keeps its literals exactly if it is tidy.
* `literals_unkept`: functions that do not keep theirs.
-/

namespace Cookbook.Body

open Cookbook.Text

/-! ## Payloads -/

/-- A function whose payload begins behind a colon. -/
structure Payload where
  /-- What stands in front of the colon. -/
  signature : List Char
  /-- The rest of the line on which the signature ends. -/
  sameLine : List Char
  /-- The lines of the block with their kinds, if there is no suite on that line. -/
  block : List (LineKind × List Char)
  /-- The lines below the signature, those behind the block too. -/
  following : List (List Char)
  deriving DecidableEq, Repr

namespace Payload

/-- The lines of the payload as they stand in the text. -/
def lines (p : Payload) : List (List Char) :=
  p.sameLine :: p.following.take p.block.length

/-- The lines behind the payload. -/
def others (p : Payload) : List (List Char) :=
  p.following.drop p.block.length

/-- The triple-quoted literals of a text that begin in its payload: those behind the ones that begin
in the signature, as far as they begin on the lines of the payload. -/
def literals (p : Payload) (source : List Char) : List TripleQuoted :=
  ((tripleQuoted source).take (tripleQuoted (p.signature ++ ':' :: joinLines p.lines)).length).drop
    (tripleQuoted p.signature).length

/-- The signature leaves nothing open, and on the lines of the payload literals in simple quotes are
closed on their lines. -/
def IsTame (p : Payload) : Prop :=
  Mode.code.after p.signature = .code ∧ ClosedOnLines .code (joinLines p.lines)

/-- No triple-quoted literal goes on behind the line of the signature, and the lines of the block are
tidy. -/
def IsTidy (p : Payload) : Prop :=
  openQuote? none p.sameLine = none ∧ ∀ line ∈ p.block, Body.IsTidy line

instance (p : Payload) : Decidable p.IsTame :=
  inferInstanceAs (Decidable (_ ∧ _))

instance (p : Payload) : Decidable p.IsTidy :=
  inferInstanceAs (Decidable (_ ∧ _))

end Payload

/-- The payload of the function that starts a text. -/
def payload? (source : List Char) : Option Payload :=
  match afterSignature source with
  | .error _ => none
  | .ok rest =>
    match splitLines rest with
    | [] => none
    | sameLine :: following =>
      some {
        signature := source.take (source.length - (rest.length + 1))
        sameLine := sameLine
        block :=
          if IsSuite sameLine then []
          else blockLines (indentWidth (firstLine source)) none following
        following := following }

variable {source body line sameLine rest : List Char} {following raws : List (List Char)}
  {lines : List (LineKind × List Char)} {least n : Nat} {quote? : Option Char}

theorem exists_payload (h : SignedBy source sameLine following) :
    ∃ signature, source = signature ++ ':' :: joinLines (sameLine :: following) ∧
      payload? source = some
        { signature := signature
          sameLine := sameLine
          block :=
            if IsSuite sameLine then []
            else blockLines (indentWidth (firstLine source)) none following
          following := following } := by
  obtain ⟨rest, hrest, hsplit⟩ := h
  obtain ⟨signature, hsource⟩ := exists_append_of_afterSignature hrest
  have hlength : source.length - (rest.length + 1) = signature.length := by
    simp [hsource]
  refine ⟨signature, by rw [hsource, ← hsplit, joinLines_splitLines], ?_⟩
  unfold payload?
  simp only [hrest, hsplit, hlength]
  simp [hsource]

/-! ## Literals that begin in a payload -/

/-- Behind a signature that leaves nothing open, a text has the literals that it has by itself. -/
theorem tripleQuoted_signature {signature : List Char} (h : Mode.code.after signature = .code)
    (text : List Char) :
    tripleQuoted (signature ++ ':' :: text) = tripleQuoted signature ++ tripleQuoted text := by
  have hcolon : Calm (':' :: text) := calm_cons rfl (by decide) text
  have hclosed : (Mode.code.after signature).Untripled := by
    rw [h]
    exact untripled_code
  rw [tripleQuoted, extents_append wellQuoted_code hcolon _ hclosed, h, extents_other rfl]
  rfl

theorem after_signature {signature : List Char} (h : Mode.code.after signature = .code)
    (text : List Char) : Mode.code.after (signature ++ ':' :: text) = Mode.code.after text := by
  have hkept := congrArg Scan.mode (@scan_other false ':' (by simp) (by decide) rfl 0 text)
  rw [after_append wellQuoted_code (calm_cons rfl (by decide) text), h]
  exact hkept.trans (mode_scan wellQuoted_code _ _)

/-- Lines that leave no literal open have their literals whatever lines follow. -/
theorem exists_tripleQuoted_append (hne : raws ≠ []) (h : (Mode.code.after (joinLines raws)).Untripled)
    (others : List (List Char)) :
    ∃ literals, tripleQuoted (joinLines (raws ++ others)) =
      tripleQuoted (joinLines raws) ++ literals := by
  by_cases hothers : others = []
  · exact ⟨[], by simp [hothers]⟩
  · rw [joinLines_append hne hothers, tripleQuoted,
      extents_append wellQuoted_code (calm_of_isBlank rfl _) _ h]
    exact ⟨_, rfl⟩

/-- The literals that begin in a payload are those of its lines. -/
theorem Payload.literals_eq {p : Payload}
    (hsource : source = p.signature ++ ':' :: joinLines (p.lines ++ p.others))
    (hsignature : Mode.code.after p.signature = .code)
    (h : (Mode.code.after (joinLines p.lines)).Untripled) :
    p.literals source = tripleQuoted (joinLines p.lines) := by
  have hne : p.lines ≠ [] := List.cons_ne_nil _ _
  obtain ⟨literals, hliterals⟩ := exists_tripleQuoted_append hne h p.others
  rw [Payload.literals, hsource, tripleQuoted_signature hsignature, tripleQuoted_signature hsignature,
    hliterals, ← List.append_assoc, List.take_left, List.drop_left]

/-! ## Suites -/

/-- Blanks around a text that leaves no literal open hold none. -/
theorem tripleQuoted_blanks_around {front text back : List Char} (hfront : ∀ c ∈ front, isBlank c = true)
    (hback : ∀ c ∈ back, isBlank c = true) (hline : '\n' ∉ front ++ (text ++ back))
    (h : (Mode.code.after text).Untripled) :
    tripleQuoted (front ++ (text ++ back)) = tripleQuoted text := by
  rw [List.mem_append, List.mem_append, not_or, not_or] at hline
  have hcalm : Calm back := by
    have hblanks := calm_blanks_append hback calm_nil
    rwa [List.append_nil] at hblanks
  have hnothing : (extents (Mode.code.after text) back).begun = [] := by
    have hblanks := extents_blanks (wellQuoted_after wellQuoted_code text) h hback hline.2.2 []
    rw [List.append_nil] at hblanks
    rw [hblanks]
    simp [extents, Extents.none]
  rw [tripleQuoted, extents_blanks wellQuoted_code untripled_code hfront hline.1,
    extents_append wellQuoted_code hcalm text h, hnothing, List.append_nil, tripleQuoted]

/-- A line that is trimmed leaves the same literal open, and if it leaves none it holds the same ones. -/
theorem trim_literals (hline : '\n' ∉ line) :
    Mode.code.after (trim line) = Mode.code.after line ∧
      ((Mode.code.after line).Untripled → tripleQuoted (trim line) = tripleQuoted line) := by
  obtain ⟨front, back, hparts, hfront, hback⟩ := surrounds_trim line
  generalize trim line = suite at *
  subst hparts
  have hafter := after_blanks_around wellQuoted_code hfront hback hline
  rw [hafter]
  exact ⟨rfl, fun h => (tripleQuoted_blanks_around hfront hback hline h).symm⟩

/-! ## Idle lines -/

theorem idleLine_of_not_isSuite (h : ¬IsSuite sameLine) : IdleLine sameLine := by
  rw [IdleLine, (surrounds_trim sameLine).kindOf_eq]
  by_cases hnil : trim sameLine = []
  · exact .inl (by rw [hnil]; rfl)
  · have hhead : (trim sameLine).head? = some '#' := by
      by_contra hhash
      exact h ⟨hnil, hhash⟩
    obtain ⟨rest, hrest⟩ := List.head?_eq_some_iff.mp hhead
    exact .inr (by rw [hrest]; rfl)

theorem IsIdle.ne_inLiteral {line : LineKind × List Char} (h : IsIdle line) :
    line.1 ≠ .inLiteral := by
  rcases h with h | h <;> simp [h]

theorem IsIdle.isTidy {line : LineKind × List Char} (h : IsIdle line) : IsTidy line := by
  intro hcode
  rcases h with h | h <;> simp [h] at hcode

theorem Classified.idleLine_of_isIdle (h : Classified quote? lines)
    (hlines : lines.map Prod.snd = raws.map dropReturns) (hidle : ∀ line ∈ lines, IsIdle line) :
    ∀ raw ∈ raws, IdleLine raw := by
  intro raw hraw
  have hmem : dropReturns raw ∈ lines.map Prod.snd := hlines ▸ List.mem_map_of_mem hraw
  obtain ⟨⟨kind, line⟩, hline, rfl⟩ := List.mem_map.mp hmem
  obtain ⟨_, hkind⟩ := h.exists_hasKind _ hline
  have hraw := (surrounds_dropReturns raw).kindOf_eq false
  rw [IdleLine, hraw, (hkind.outside (hidle _ hline).ne_inLiteral).2]
  exact hidle _ hline

theorem openQuote?_idle (hkind : IdleLine line) (hline : '\n' ∉ line) : openQuote? none line = none := by
  obtain ⟨mode, hmode, hafter, -⟩ := exists_idle_mode hkind hline
  rw [openQuote?_eq, Mode.inside, hafter]
  rcases hmode with rfl | rfl <;> rfl

variable {idle within below : List (List Char)}

theorem closedOnLines_of_idle_append
    (hidle : ∀ line ∈ idle, IdleLine line) (hlines : ∀ line ∈ idle, '\n' ∉ line)
    (h : ClosedOnLines .code (joinLines (idle ++ raws))) :
    ClosedOnLines .code (joinLines raws) := by
  induction idle with
  | nil => exact h
  | cons line idle ih =>
    rw [List.forall_mem_cons] at hidle hlines
    have hbelow := (@ClosedOnLines.of_cons line none _ (fun _ hq => by cases hq) h).2
    rw [openQuote?_idle hidle.1 hlines.1] at hbelow
    exact ih hidle.2 hlines.2 hbelow

theorem closedOnLines_left (h : ClosedOnLines .code (joinLines (raws ++ below))) :
    ClosedOnLines .code (joinLines raws) := by
  by_cases hraws : raws = []
  · rintro above behind habove
    simp [hraws, joinLines] at habove
  · by_cases hbelow : below = []
    · rwa [hbelow, List.append_nil] at h
    · rw [joinLines_append hraws hbelow] at h
      exact h.left

/-- Idle lines behind others that leave no literal open hold none. -/
theorem tripleQuoted_append_idle
    (hidle : ∀ line ∈ idle, IdleLine line) (hlines : ∀ line ∈ idle, '\n' ∉ line) (hne : raws ≠ [])
    (hclosed : ClosedOnLines .code (joinLines (raws ++ idle)))
    (h : (Mode.code.after (joinLines raws)).Untripled) :
    tripleQuoted (joinLines (raws ++ idle)) = tripleQuoted (joinLines raws) := by
  by_cases hnil : idle = []
  · rw [hnil, List.append_nil]
  · rw [joinLines_append hne hnil] at hclosed ⊢
    have hnext : (Mode.code.after (joinLines raws)).nextLine = .code := by
      rw [Mode.nextLine_eq_inside hclosed.here, Mode.untripled_iff.mp h]
      rfl
    have hnothing := extents_idle_lines hidle hlines []
    rw [List.append_nil] at hnothing
    rw [tripleQuoted, extents_append wellQuoted_code (calm_of_isBlank rfl _) _ h,
      extents_lineFeed (wellQuoted_after wellQuoted_code _) h, hnext, hnothing]
    simp [extents, joinLines, Extents.none, tripleQuoted]

/-- Lines with idle ones above and below hold the same literals without these. -/
theorem tripleQuoted_idle_around
    (habove : ∀ line ∈ idle, IdleLine line ∧ '\n' ∉ line)
    (hbelow : ∀ line ∈ below, IdleLine line ∧ '\n' ∉ line) (hne : within ≠ [])
    (hclosed : ClosedOnLines .code (joinLines (idle ++ (within ++ below)))) :
    ClosedOnLines .code (joinLines within) ∧ ((Mode.code.after (joinLines within)).Untripled →
      tripleQuoted (joinLines (idle ++ (within ++ below))) = tripleQuoted (joinLines within)) := by
  have hidle := fun line hline => (habove line hline).1
  have hlines := fun line hline => (habove line hline).2
  have hback := closedOnLines_of_idle_append hidle hlines hclosed
  refine ⟨closedOnLines_left hback, fun h => ?_⟩
  rw [tripleQuoted, extents_idle_lines hidle hlines]
  exact tripleQuoted_append_idle (fun line hline => (hbelow line hline).1)
    (fun line hline => (hbelow line hline).2) hne hback h

/-! ## Blocks -/

theorem openBehind_append (quote? : Option Char) (above below : List (List Char)) :
    openBehind quote? (above ++ below) = openBehind (openBehind quote? above) below :=
  List.foldl_append

/-- The lines of a block that make up a body, and idle ones in front and behind. No literal is open
around any of them. -/
structure Trimmed (front kept back : List (LineKind × List Char)) : Prop where
  ne_nil : kept ≠ []
  idle_front : ∀ line ∈ front, IsIdle line
  idle_back : ∀ line ∈ back, IsIdle line
  classified_front : Classified none front
  classified : Classified none kept
  classified_back : Classified none back
  closed : openBehind none (kept.map Prod.snd) = none

theorem Classified.exists_trimmed (h : Classified none lines) (hcode : codeIndent? lines ≠ none)
    (hopen : openBehind none (lines.map Prod.snd) = none) :
    ∃ front kept back, lines = front ++ (kept ++ back) ∧ trimBlock lines = kept ∧
      Trimmed front kept back := by
  obtain ⟨front, init, last, back, rfl, htrim, hblanks, -, -, hidle⟩ :=
    exists_append_trimBlock (exists_code_of_codeIndent? hcode)
  have hne : init ++ [last] ≠ [] := by simp
  rw [List.append_cons init last back] at *
  obtain ⟨hfront, hback⟩ := h.of_append
  have hopenFront := hfront.openBehind_of_blank hblanks
  rw [hopenFront] at hback
  obtain ⟨hkept, hback⟩ := hback.of_append
  -- If a literal were open behind the body, it would be open in front of an idle line or at the end.
  have hclosed : openBehind none ((init ++ [last]).map Prod.snd) = none := by
    rw [List.map_append, openBehind_append, hopenFront, List.map_append, openBehind_append] at hopen
    cases back with
    | nil => exact hopen
    | cons line back =>
      cases hback with
      | cons hline _ => exact (hline.outside (hidle _ List.mem_cons_self).ne_inLiteral).1
  rw [hclosed] at hback
  exact ⟨front, _, back, rfl, htrim, hne, fun line hline => .inl (hblanks line hline), hidle, hfront,
    hkept, hback, hclosed⟩

/-- A block keeps its literals exactly if its lines are tidy. -/
theorem block_kept_iff (h : Classified none lines)
    (hlines : lines.map Prod.snd = raws.map dropReturns) (hraws : ∀ raw ∈ sameLine :: raws, '\n' ∉ raw)
    (hsuite : ¬IsSuite sameLine) (hleast : codeIndent? lines = some least)
    (hclosed : ClosedOnLines .code (joinLines (sameLine :: raws)))
    (hopen : openBehind none (lines.map Prod.snd) = none) :
    (List.Forall₂ Kept (tripleQuoted (joinLines (sameLine :: raws)))
        (tripleQuoted (joinLines ((trimBlock lines).map (dedent least)))) ∧
      (Mode.code.after (joinLines ((trimBlock lines).map (dedent least)))).Untripled) ↔
        ∀ line ∈ lines, IsTidy line := by
  have hcode : codeIndent? lines ≠ none := by
    rw [hleast]
    exact Option.some_ne_none least
  obtain ⟨front, kept, back, rfl, htrim, htrimmed⟩ := h.exists_trimmed hcode hopen
  have hleast := (codeIndent?_between htrimmed.idle_front htrimmed.idle_back).symm.trans hleast
  -- The lines of the text are those above the body, those of the body and those below it.
  rw [List.map_append, List.map_append] at hlines
  obtain ⟨above, within, rfl, habove, hwithin⟩ := List.map_eq_append_iff.mp hlines.symm
  obtain ⟨within, below, rfl, hwithin, hbelow⟩ := List.map_eq_append_iff.mp hwithin
  rw [List.forall_mem_cons, List.forall_mem_append, List.forall_mem_append] at hraws
  have hne : within ≠ [] := by
    rintro rfl
    exact htrimmed.ne_nil (List.map_eq_nil_iff.mp hwithin.symm)
  have hidleAbove := htrimmed.classified_front.idleLine_of_isIdle habove.symm htrimmed.idle_front
  have hidleBelow := htrimmed.classified_back.idleLine_of_isIdle hbelow.symm htrimmed.idle_back
  obtain ⟨hclosed, hliterals⟩ := tripleQuoted_idle_around
    (List.forall_mem_cons.mpr ⟨⟨idleLine_of_not_isSuite hsuite, hraws.1⟩,
      fun raw hraw => ⟨hidleAbove raw hraw, hraws.2.1 raw hraw⟩⟩)
    (fun raw hraw => ⟨hidleBelow raw hraw, hraws.2.2.2 raw hraw⟩) hne hclosed
  obtain ⟨huntripled, hafter, hiff⟩ := htrimmed.classified.forall₂_kept_iff hwithin.symm hraws.2.2.1
    (fun line hline => le_of_codeIndent? hleast hline) hclosed htrimmed.closed
  rw [htrim, ← List.cons_append, hliterals huntripled, hiff, hafter, List.forall_mem_append,
    List.forall_mem_append]
  constructor
  · rintro ⟨hkept, -⟩
    exact ⟨fun line hline => (htrimmed.idle_front line hline).isTidy, hkept,
      fun line hline => (htrimmed.idle_back line hline).isTidy⟩
  · rintro ⟨-, hkept, -⟩
    exact ⟨hkept, huntripled⟩

/-! ## Payloads that are kept -/

/-- The lines of a block are the first ones of the text, without carriage returns at their ends. -/
theorem map_snd_blockLines (n : Nat) (quote? : Option Char) (raws : List (List Char)) :
    (blockLines n quote? raws).map Prod.snd =
      (raws.take (blockLines n quote? raws).length).map dropReturns := by
  fun_induction blockLines n quote? raws
  case case1 | case5 => rfl
  case case2 ih | case3 ih | case4 ih | case6 ih =>
    rw [List.map_cons, ih]
    rfl

/-- A block that leaves a literal open goes on to the end of the text. -/
theorem drop_blockLines (hquote : ∀ q ∈ quote?, isQuote q = true) (hraws : ∀ raw ∈ raws, '\n' ∉ raw)
    (hopen : openBehind quote? ((blockLines n quote? raws).map Prod.snd) ≠ none) :
    raws.drop (blockLines n quote? raws).length = [] := by
  induction raws generalizing quote? with
  | nil => rfl
  | cons raw raws ih =>
    rw [List.forall_mem_cons] at hraws
    have hkind := hasKind_dropReturns hquote hraws.1
    by_cases hdeep : kindOf quote?.isSome (dropReturns raw) = .code →
        n < indentWidth (dropReturns raw)
    · rw [hkind.blockLines_cons hdeep] at hopen ⊢
      exact ih (isQuote_openQuote? hquote _) hraws.2 hopen
    · obtain ⟨hcode, hends⟩ := Classical.not_imp.mp hdeep
      obtain rfl := (hkind.outside (by rw [hcode]; decide)).1
      rw [blockLines] at hopen
      simp only [hcode, if_pos (Nat.not_lt.mp hends)] at hopen
      exact absurd rfl hopen

namespace Payload

variable {p : Payload}

theorem lines_append_others (p : Payload) : p.lines ++ p.others = p.sameLine :: p.following := by
  rw [Payload.lines, Payload.others, List.cons_append, List.take_append_drop]

/-- A suite on the line of the signature keeps its literals, unless one goes on below. -/
theorem suite_kept_iff (hsource : source = p.signature ++ ':' :: joinLines (p.lines ++ p.others))
    (hline : '\n' ∉ p.sameLine) (hblock : p.block = []) (htame : p.IsTame) :
    (List.Forall₂ Kept (p.literals source) (tripleQuoted (trim p.sameLine)) ∧
      (Mode.code.after (trim p.sameLine)).Untripled) ↔ p.IsTidy := by
  have hlines : joinLines p.lines = p.sameLine := by simp [Payload.lines, hblock, joinLines]
  have htidy : p.IsTidy ↔ (Mode.code.after p.sameLine).Untripled := by
    rw [Mode.untripled_iff, Payload.IsTidy, openQuote?_eq, hblock]
    exact and_iff_left (List.forall_mem_nil _)
  obtain ⟨hafter, hliterals⟩ := trim_literals hline
  rw [htidy, hafter]
  constructor
  · exact And.right
  · intro h
    rw [hliterals h, p.literals_eq hsource htame.1 (hlines.symm ▸ h), hlines]
    exact ⟨List.forall₂_same.mpr fun literal _ => .refl literal, h⟩

/-- A block below the signature keeps its literals exactly if it is tidy. -/
theorem block_kept_iff (hsource : source = p.signature ++ ':' :: joinLines (p.lines ++ p.others))
    (hlines : ∀ line ∈ p.sameLine :: p.following, '\n' ∉ line) (hsuite : ¬IsSuite p.sameLine)
    (hblock : p.block = blockLines n none p.following) (hleast : codeIndent? p.block = some least)
    (hclosed : (Mode.code.after source).Untripled) (htame : p.IsTame) :
    (List.Forall₂ Kept (p.literals source)
        (tripleQuoted (joinLines ((trimBlock p.block).map (dedent least)))) ∧
      (Mode.code.after (joinLines ((trimBlock p.block).map (dedent least)))).Untripled) ↔ p.IsTidy := by
  have hnone : ∀ q ∈ (none : Option Char), isQuote q = true := fun _ hq => by cases hq
  have hraws : ∀ line ∈ p.lines, '\n' ∉ line := fun line hline =>
    hlines line (p.lines_append_others ▸ List.mem_append_left _ hline)
  have hbelow : ∀ line ∈ p.following, '\n' ∉ line := (List.forall_mem_cons.mp hlines).2
  have hsnd := hblock ▸ map_snd_blockLines n none p.following
  have hclassified : Classified none p.block := hblock ▸ classified_blockLines hnone hbelow
  have hsame := openQuote?_idle (idleLine_of_not_isSuite hsuite) (hlines _ List.mem_cons_self)
  have hafter : (Mode.code.after (joinLines p.lines)).tripled? =
      openBehind none (p.block.map Prod.snd) := by
    have hraws := (List.forall_mem_cons.mp hraws).2
    calc (Mode.code.after (joinLines p.lines)).tripled?
        = openBehind (openQuote? none p.sameLine) (p.following.take p.block.length) :=
          tripled?_after_joinLines hnone htame.2
      _ = openBehind none (p.block.map Prod.snd) := by
          rw [hsame, hsnd, openBehind_dropReturns hnone hraws]
  have hopen : openBehind none (p.block.map Prod.snd) = none := by
    by_contra hopen
    -- Otherwise the block goes on to the end of the text, where no literal is open.
    have hothers : p.others = [] := by
      rw [hblock] at hopen
      rw [Payload.others, hblock]
      exact drop_blockLines hnone hbelow hopen
    rw [hsource, hothers, List.append_nil, after_signature htame.1, Mode.untripled_iff,
      hafter] at hclosed
    exact hopen hclosed
  rw [p.literals_eq hsource htame.1 (Mode.untripled_iff.mpr (hafter.trans hopen)), Payload.IsTidy,
    iff_true_intro hsame, true_and]
  exact Body.block_kept_iff hclassified hsnd hraws hsuite hleast htame.2 hopen

end Payload

/-- A function whose block is found, in a text that leaves no triple-quoted literal open, has a payload.
If this is tame, the triple-quoted literals that begin there are kept in the block, which leaves none
open, exactly if the payload is tidy. -/
theorem literals_kept_iff (hbody : block source = .ok body)
    (hclosed : (Mode.code.after source).Untripled) :
    ∃ p, payload? source = some p ∧ (p.IsTame →
      ((List.Forall₂ Kept (p.literals source) (tripleQuoted body) ∧
        (Mode.code.after body).Untripled) ↔ p.IsTidy)) := by
  obtain ⟨sameLine, following, hsigned⟩ := exists_signedBy hbody
  obtain ⟨signature, hsource, hpayload⟩ := exists_payload hsigned
  have hlines := hsigned.forall_lines
  rw [block_of_signedBy hsigned] at hbody
  -- The body is on the line of the signature, or it is the block below. The literals of each form
  -- are dealt with on their own.
  by_cases hsuite : IsSuite sameLine
  · rw [if_pos hsuite] at hbody hpayload
    obtain rfl := Except.ok.inj hbody
    refine ⟨_, hpayload, Payload.suite_kept_iff ?_ (hlines _ List.mem_cons_self) rfl⟩
    rw [Payload.lines_append_others]
    exact hsource
  · rw [if_neg hsuite] at hpayload
    rw [if_neg hsuite, blockText] at hbody
    split at hbody
    · cases hbody
    · next least hleast =>
      obtain rfl := Except.ok.inj hbody
      refine ⟨_, hpayload, Payload.block_kept_iff ?_ hlines hsuite rfl hleast hclosed⟩
      rw [Payload.lines_append_others]
      exact hsource

/-- A comment that looks like the start of a literal, a number sign in a literal, and a literal with
lines that are indented more and less than the code. -/
def commented : String :=
  "def f(): # '''\n    x = '#' + '''a\n      b \n\n''' + \"\"\"c\"\"\"\n    # \"\"\"\n" ++
    "    go(x)\n\ndef g(): pass\n"

theorem literals_kept_commented :
    ∃ p, payload? commented.toList = some p ∧ p.IsTame ∧ p.IsTidy ∧
      p.literals commented.toList = [⟨'\'', "a\n      b \n\n".toList⟩, ⟨'"', "c".toList⟩] ∧
      List.Forall₂ Kept (p.literals commented.toList)
        [⟨'\'', "a\n  b \n\n".toList⟩, ⟨'"', "c".toList⟩] := by
  have hblock : block commented.toList =
      .ok "x = '#' + '''a\n  b \n\n''' + \"\"\"c\"\"\"\n# \"\"\"\ngo(x)".toList :=
    eq_ok_of_toOption (by decide +kernel)
  have hsettled : (payload? commented.toList).all (fun p => decide (p.IsTame ∧ p.IsTidy ∧
      p.literals commented.toList = [⟨'\'', "a\n      b \n\n".toList⟩, ⟨'"', "c".toList⟩])) = true := by
    decide +kernel
  obtain ⟨p, hp, hkept⟩ := literals_kept_iff hblock (by decide +kernel)
  rw [hp, Option.all_some, decide_eq_true_eq] at hsettled
  obtain ⟨htame, htidy, hliterals⟩ := hsettled
  have hbody : tripleQuoted "x = '#' + '''a\n  b \n\n''' + \"\"\"c\"\"\"\n# \"\"\"\ngo(x)".toList =
      [⟨'\'', "a\n  b \n\n".toList⟩, ⟨'"', "c".toList⟩] := by
    decide +kernel
  exact ⟨p, hp, htame, htidy, hliterals, hbody ▸ ((hkept htame).mpr htidy).1⟩

/-- A suite with a literal over two lines. -/
def tornSuite : String :=
  "def f(): x = '''a\nb'''\n"

/-- A literal with blanks at the end of its first line. -/
def looseLiteral : String :=
  "def f():\n    x = '''a  \n    b'''\n"

/-- A literal in simple quotes that goes on on the next line. -/
def longQuote : String :=
  "def f():\n    x = \"a\\\n    b\" + '''\nc\n'''\n"

/-- A suite is cut within a literal, a literal loses the blanks at the end of its first line, and
behind a literal in simple quotes that goes on on the next line a block is cut within a literal. No
text leaves a literal open. -/
theorem literals_unkept :
    ((Mode.code.after tornSuite.toList).Untripled ∧ block tornSuite.toList = .ok "x = '''a".toList ∧
      ¬(Mode.code.after "x = '''a".toList).Untripled) ∧
    ((Mode.code.after looseLiteral.toList).Untripled ∧
      tripleQuoted looseLiteral.toList = [⟨'\'', "a  \n    b".toList⟩] ∧
      block looseLiteral.toList = .ok "x = '''a\nb'''".toList ∧
      tripleQuoted "x = '''a\nb'''".toList = [⟨'\'', "a\nb".toList⟩] ∧
      ¬Kept ⟨'\'', "a  \n    b".toList⟩ ⟨'\'', "a\nb".toList⟩) ∧
    (Mode.code.after longQuote.toList).Untripled ∧
      block longQuote.toList = .ok "x = \"a\\\nb\" + '''".toList ∧
      ¬(Mode.code.after "x = \"a\\\nb\" + '''".toList).Untripled := by
  refine ⟨⟨by decide +kernel, eq_ok_of_toOption (by decide +kernel), by decide +kernel⟩,
    ⟨by decide +kernel, by decide +kernel, eq_ok_of_toOption (by decide +kernel), by decide +kernel, ?_⟩,
    by decide +kernel, eq_ok_of_toOption (by decide +kernel), by decide +kernel⟩
  intro hkept
  have htop : dropReturns (topLine "a  \n    b".toList) = dropReturns (topLine "a\nb".toList) :=
    hkept.sameTop
  exact absurd htop (by decide +kernel)

end Cookbook.Body
