import Cookbook.Proofs.Artifact.BlockLines
import Cookbook.Proofs.Text.TripleQuoted
import Mathlib.Data.List.Forall2

/-!
# Literals that are kept

A literal is kept if it is the same line by line, but for the indent of its later lines. Of two texts
that start alike, one keeps the literals of the other if it does behind what they share.

## Main definitions

* `Kept`: what may become of a literal.
* `KeptFrom`: the literals of a text are kept in another one.

## Main results

* `keptFrom_append_iff`: the literals of texts that start alike.
* `sameTop_append`: the literal that is open in front of texts that start alike.
-/

namespace Cookbook.Body

open Cookbook.Text

variable {text more line kept u v : List Char} {c q : Char} {mode : Mode} {e f : Extents}

/-! ## Contents line by line -/

/-- A line that may have lost indent, carriage returns at its end aside. -/
def KeptLine (line kept : List Char) : Prop :=
  ∃ indent, (∀ c ∈ indent, isIndent c = true) ∧ dropReturns line = indent ++ dropReturns kept

/-- A text up to its first line feed. -/
def topLine (text : List Char) : List Char :=
  text.takeWhile (· != '\n')

/-- Contents with the same first line, carriage returns at its end aside. -/
def SameTop (content kept : List Char) : Prop :=
  dropReturns (topLine content) = dropReturns (topLine kept)

/-- Contents of which the lines behind the first one may lose indent. -/
def KeptBelow (content kept : List Char) : Prop :=
  List.Forall₂ KeptLine (splitLines content).tail (splitLines kept).tail

/-- A literal is the same line by line, but for the indent of its later lines and for carriage returns
at the ends of lines. -/
structure Kept (literal kept : TripleQuoted) : Prop where
  quote_eq : literal.quote = kept.quote
  sameTop : SameTop literal.content kept.content
  keptBelow : KeptBelow literal.content kept.content

theorem KeptLine.refl (line : List Char) : KeptLine line line :=
  ⟨[], List.forall_mem_nil _, rfl⟩

theorem Kept.refl (literal : TripleQuoted) : Kept literal literal :=
  ⟨rfl, rfl, List.forall₂_same.mpr fun line _ => .refl line⟩

theorem dropReturns_cons (c : Char) (line : List Char) :
    dropReturns (c :: line) =
      if dropReturns line = [] ∧ c = '\r' then [] else c :: dropReturns line := by
  by_cases hall : List.dropWhile (· == '\r') line.reverse = []
  · by_cases hc : c = '\r' <;> simp [dropReturns, dropEndWhile, List.dropWhile_append, hall, hc]
  · simp [dropReturns, dropEndWhile, List.dropWhile_append, hall]

theorem dropReturns_cons_of_ne (hc : c ≠ '\r') (line : List Char) :
    dropReturns (c :: line) = c :: dropReturns line := by
  rw [dropReturns_cons, if_neg fun h => hc h.2]

theorem dropReturns_cons_inj {a b : List Char} :
    dropReturns (c :: a) = dropReturns (c :: b) ↔ dropReturns a = dropReturns b := by
  constructor
  · intro h
    rw [dropReturns_cons, dropReturns_cons] at h
    split at h
    · next ha =>
      split at h
      · next hb => rw [ha.1, hb.1]
      · cases h
    · split at h
      · cases h
      · exact (List.cons.inj h).2
  · intro h
    rw [dropReturns_cons, dropReturns_cons, h]

theorem topLine_cons (hc : c ≠ '\n') (text : List Char) : topLine (c :: text) = c :: topLine text := by
  simp [topLine, hc]

@[simp] theorem topLine_lineFeed (text : List Char) : topLine ('\n' :: text) = [] := by
  simp [topLine]

theorem topLine_append_of_not_mem (hline : '\n' ∉ line) (text : List Char) :
    topLine (line ++ text) = line ++ topLine text := by
  have hword : ∀ c ∈ line, (c != '\n') = true := fun c hc => by
    simpa using ne_of_mem_of_not_mem hc hline
  exact List.takeWhile_append_of_pos hword

theorem topLine_append_lineFeed (hline : '\n' ∉ line) (text : List Char) :
    topLine (line ++ '\n' :: text) = line := by
  rw [topLine_append_of_not_mem hline, topLine_lineFeed, List.append_nil]

theorem splitLines_eq (text : List Char) : splitLines text = topLine text :: (splitLines text).tail := by
  induction text with
  | nil => rfl
  | cons c text ih =>
    by_cases hc : c = '\n'
    · simp [splitLines, hc]
    · rw [splitLines, if_neg hc, ih, topLine_cons hc]
      rfl

theorem sameTop_cons_iff (hc : c ≠ '\n') : SameTop (c :: u) (c :: v) ↔ SameTop u v := by
  rw [SameTop, topLine_cons hc, topLine_cons hc, dropReturns_cons_inj, SameTop]

theorem tail_splitLines_cons (hc : c ≠ '\n') (text : List Char) :
    (splitLines (c :: text)).tail = (splitLines text).tail := by
  rw [splitLines, if_neg hc, splitLines_eq text]
  rfl

theorem keptBelow_cons_iff (hc : c ≠ '\n') : KeptBelow (c :: u) (c :: v) ↔ KeptBelow u v := by
  rw [KeptBelow, tail_splitLines_cons hc, tail_splitLines_cons hc, KeptBelow]

theorem keptBelow_append_left (h : '\n' ∉ line) : KeptBelow (line ++ u) v ↔ KeptBelow u v := by
  induction line with
  | nil => rfl
  | cons c line ih =>
    rw [List.mem_cons, not_or] at h
    rw [← ih h.2, KeptBelow, List.cons_append, tail_splitLines_cons (Ne.symm h.1), KeptBelow]

/-- Behind a line feed, the first line is one of the later lines. -/
theorem keptBelow_lineFeed_iff : KeptBelow ('\n' :: u) ('\n' :: v) ↔
    KeptLine (topLine u) (topLine v) ∧ KeptBelow u v := by
  have htail : ∀ text, (splitLines ('\n' :: text)).tail = splitLines text := fun text => by
    simp [splitLines]
  rw [KeptBelow, htail, htail, splitLines_eq u, splitLines_eq v, List.forall₂_cons]
  rfl

/-- Indent in front of a first line may be lost. -/
theorem SameTop.keptLine {indent : List Char} (h : SameTop u v)
    (hindent : ∀ c ∈ indent, isIndent c = true) : KeptLine (topLine (indent ++ u)) (topLine v) := by
  refine ⟨indent, hindent, ?_⟩
  induction indent with
  | nil => exact h
  | cons c indent ih =>
    rw [List.forall_mem_cons] at hindent
    have hc : c = ' ' ∨ c = '\t' := by simpa [isIndent] using hindent.1
    have hline : c ≠ '\n' := by rcases hc with rfl | rfl <;> decide
    have hreturn : c ≠ '\r' := by rcases hc with rfl | rfl <;> decide
    rw [List.cons_append, topLine_cons hline, dropReturns_cons_of_ne hreturn, ih hindent.2]
    rfl

/-! ## Texts that start alike -/

/-- Literals are kept, but for the first line of one that is open in front of the text. -/
structure KeptBehind (e f : Extents) : Prop where
  below : KeptBelow e.inner f.inner
  begun : List.Forall₂ Kept e.begun f.begun

/-- Literals are kept in a text of which the scan starts in a mode. -/
structure KeptFrom (mode : Mode) (e f : Extents) : Prop where
  top : mode.Untripled ∨ SameTop e.inner f.inner
  behind : KeptBehind e f

theorem keptFrom_iff (h : mode.Untripled) : KeptFrom mode e f ↔ KeptBehind e f :=
  ⟨KeptFrom.behind, fun hbehind => ⟨.inl h, hbehind⟩⟩

theorem KeptBehind.refl (e : Extents) : KeptBehind e e :=
  ⟨List.forall₂_same.mpr fun line _ => .refl line, List.forall₂_same.mpr fun literal _ => .refl literal⟩

theorem not_untripled (q : Char) : ¬(Mode.tripled q).Untripled :=
  fun h => h q rfl

/-- The first line of a literal is on the line that opens it. -/
theorem keptBehind_enter_iff :
    KeptBehind (e.enter q) (f.enter q) ↔ KeptFrom (.tripled q) e f := by
  constructor
  · rintro ⟨-, hbegun⟩
    obtain ⟨hkept, hrest⟩ := List.forall₂_cons.mp hbegun
    exact ⟨.inr hkept.sameTop, hkept.keptBelow, hrest⟩
  · rintro ⟨htop, hbelow, hbegun⟩
    exact ⟨.nil, .cons ⟨rfl, htop.resolve_left (not_untripled q), hbelow⟩ hbegun⟩

theorem keptFrom_hold_iff (hc : c ≠ '\n') :
    KeptFrom mode (e.hold c) (f.hold c) ↔ KeptFrom mode e f := by
  constructor
  · rintro ⟨htop, hbelow, hbegun⟩
    exact ⟨htop.imp_right (sameTop_cons_iff hc).mp, (keptBelow_cons_iff hc).mp hbelow, hbegun⟩
  · rintro ⟨htop, hbelow, hbegun⟩
    exact ⟨htop.imp_right (sameTop_cons_iff hc).mpr, (keptBelow_cons_iff hc).mpr hbelow, hbegun⟩

variable {other : List Char}

theorem sameTop_of_untripled {next : Mode} (hnext : next.WellQuoted) (h : next.Untripled) :
    SameTop (extents next u).inner (extents next v).inner := by
  rw [inner_of_untripled hnext u h, inner_of_untripled hnext v h]
  rfl

/-- A literal in front of two texts that start alike goes on with the same line, if it does behind
what they share. -/
theorem sameTop_append (hmode : mode.WellQuoted) (hmore : Calm more) (hother : Calm other)
    (hline : '\n' ∉ text) :
    ((mode.after text).Untripled ∨
      SameTop (extents (mode.after text) more).inner (extents (mode.after text) other).inner) →
    SameTop (extents mode (text ++ more)).inner (extents mode (text ++ other)).inner := by
  -- As long as the literal goes on, both texts show the same characters. Where it is closed nothing
  -- more belongs to it, whatever stands behind.
  refine extents_induction (motive := fun mode text => mode.WellQuoted → '\n' ∉ text →
    ((mode.after text).Untripled ∨
      SameTop (extents (mode.after text) more).inner (extents (mode.after text) other).inner) →
    SameTop (extents mode (text ++ more)).inner (extents mode (text ++ other)).inner)
    ?nil ?dangling ?enter ?hold ?pass hmode text hmode hline
  case nil => exact fun _ hmode _ h => h.elim (sameTop_of_untripled hmode) id
  case dangling => exact fun q _ hmode _ _ => sameTop_of_untripled hmode (untripled_quoted q)
  case enter =>
    intro q rest _ hgoes _ _ _ _
    rw [List.append_assoc, List.append_assoc, (hgoes more (hmore.decided _)).extents_eq,
      (hgoes other (hother.decided _)).extents_eq]
    rfl
  case hold =>
    intro q c rest _ hgoes ih hmode hline h
    rw [List.mem_append, not_or, List.mem_singleton] at hline
    rw [(goes_here hgoes).after_eq] at h
    rw [List.append_assoc, List.append_assoc, (hgoes more (hmore.decided _)).extents_eq,
      (hgoes other (hother.decided _)).extents_eq]
    exact (sameTop_cons_iff (Ne.symm hline.1)).mpr (ih hmode hline.2 h)
  case pass =>
    intro mode taken next rest hnext hclosed hgoes _ _ _ _
    rw [List.append_assoc, List.append_assoc, (hgoes more (hmore.decided _)).extents_eq,
      (hgoes other (hother.decided _)).extents_eq]
    exact sameTop_of_untripled hnext hclosed

/-- Literals of texts that start alike are kept exactly if they are behind what the texts share. -/
theorem keptFrom_append_iff (hmode : mode.WellQuoted) (hmore : Calm more) (hother : Calm other)
    (hline : '\n' ∉ text) :
    KeptFrom mode (extents mode (text ++ more)) (extents mode (text ++ other)) ↔
      KeptFrom (mode.after text) (extents (mode.after text) more)
        (extents (mode.after text) other) := by
  refine extents_induction (motive := fun mode text => mode.WellQuoted → '\n' ∉ text →
    (KeptFrom mode (extents mode (text ++ more)) (extents mode (text ++ other)) ↔
      KeptFrom (mode.after text) (extents (mode.after text) more)
        (extents (mode.after text) other)))
    ?nil ?dangling ?enter ?hold ?pass hmode text hmode hline
  case nil => exact fun _ _ _ => Iff.rfl
  case dangling =>
    intro q hquote _ _
    have hafter : (Mode.quoted q).after ['\\'] = .quoted q := by simp [Mode.after, scan]
    rw [hafter, (goes_dangling hquote hmore).extents_eq, (goes_dangling hquote hother).extents_eq]
    rfl
  case enter =>
    intro q rest hquote hgoes ih _ hline
    rw [List.mem_append, not_or] at hline
    rw [List.append_assoc, List.append_assoc, (hgoes more (hmore.decided _)).extents_eq,
      (hgoes other (hother.decided _)).extents_eq, (goes_here hgoes).after_eq,
      keptFrom_iff untripled_code, keptBehind_enter_iff]
    exact ih (@wellQuoted_mode ⟨q, true⟩ hquote) hline.2
  case hold =>
    intro q c rest _ hgoes ih hmode hline
    rw [List.mem_append, not_or, List.mem_singleton] at hline
    rw [List.append_assoc, List.append_assoc, (hgoes more (hmore.decided _)).extents_eq,
      (hgoes other (hother.decided _)).extents_eq, (goes_here hgoes).after_eq,
      keptFrom_hold_iff (Ne.symm hline.1)]
    exact ih hmode hline.2
  case pass =>
    intro mode taken next rest hnext hclosed hgoes ih _ hline
    rw [List.mem_append, not_or] at hline
    -- No literal is open in front of what follows, whatever the mode here.
    have htop := @sameTop_of_untripled (rest ++ more) (rest ++ other) next hnext hclosed
    have hbehind : KeptFrom mode (extents next (rest ++ more)) (extents next (rest ++ other)) ↔
        KeptFrom next (extents next (rest ++ more)) (extents next (rest ++ other)) :=
      ⟨fun h => ⟨.inl hclosed, h.behind⟩, fun h => ⟨.inr htop, h.behind⟩⟩
    rw [List.append_assoc, List.append_assoc, (hgoes more (hmore.decided _)).extents_eq,
      (hgoes other (hother.decided _)).extents_eq, (goes_here hgoes).after_eq]
    exact hbehind.trans (ih hnext hline.2)

end Cookbook.Body
