import Cookbook.Proofs.Registration.Passing
import Cookbook.Proofs.Rule.Runs

/-!
# Parsers that settle

What a parser takes does not depend on the layout at the end of the text, and the readers of groups and
of values pass over it, although they know nothing of the grammar. This carries over from the parts of
a parser to the parser.

## Main definitions

* `Settles`: what a parser takes in front of layout at the end of a text.
* `behind`: a parser of what stands behind a character.

## Main results

* `Settles.bind`, `Settles.skip`, `Settles.behind`: sequences, gaps and signs.
* `Separated.settles`, `settles_group`: lists.
* `settles_name`, `settles_word`, `settles_integer`, `settles_literal`, `settles_label`: tokens.
-/

namespace Cookbook

open Cookbook.Text Cookbook.Grammar

variable {c close : Char} {input taken middle lay rest after gap : List Char}

/-! ## Layout -/

/-- What layout leaves of a text, in parts. -/
theorem exists_taken_of_skipLayout {inner : List Char} (h : skipLayout (taken ++ rest) = c :: inner)
    (hsuffix : rest <:+ inner) :
    ∃ gap first, IsGap gap ∧ taken = gap ++ c :: first ∧ inner = first ++ rest ∧
      startsGap c = false := by
  obtain ⟨gap, hgap, htext, hc⟩ := exists_gap_of_skipLayout h
  obtain ⟨first, rfl⟩ := hsuffix
  refine ⟨gap, first, hgap, ?_, rfl, hc⟩
  rw [← List.cons_append, ← List.append_assoc] at htext
  exact List.append_cancel_right htext

/-! ## Parsers -/

section Parsers

variable {α β : Type} {p q : Parser α} {bound : Nat}

/-- What `p` takes in front of layout at the end of a text, `q` takes from the text without this
layout, if it is shorter than `bound`. And the readers of groups and of values pass over it, with
anything in place of the layout that starts with no quote. -/
def Settles (p q : Parser α) (bound : Nat) : Prop :=
  ∀ ⦃taken middle lay : List Char⦄ ⦃value : α⦄, IsLayout lay → (taken ++ middle).length < bound →
    p (taken ++ (middle ++ lay)) = .done value (middle ++ lay) →
      q (taken ++ middle) = .done value middle ∧
        ∀ after, Unquoted after → Passed taken (middle ++ after)

theorem Settles.mono {less : Nat} (h : Settles p q bound) (hless : less ≤ bound) :
    Settles p q less :=
  fun _ _ _ _ hlay hlength hrun => h hlay (Nat.lt_of_lt_of_le hlength hless) hrun

theorem settles_pure (value : α) (bound : Nat) :
    Settles (Pure.pure value : Parser α) (Pure.pure value) bound := by
  intro taken middle lay result _ _ h
  obtain ⟨rfl, htext⟩ := Outcome.done.inj h
  obtain rfl : taken = [] := List.append_left_eq_self.mp htext
  exact ⟨rfl, fun after _ => passed_nil _⟩

theorem Settles.map {f : α → β} (h : Settles p q bound) :
    Settles (fun input => (p input).map f) (fun input => (q input).map f) bound := by
  intro taken middle lay value hlay hlength hrun
  obtain ⟨found, hfound, rfl⟩ := map_eq_done hrun
  obtain ⟨hq, hpassed⟩ := h hlay hlength hfound
  exact ⟨congrArg (Outcome.map f) hq, hpassed⟩

theorem bind_pure_eq_map (p : Parser α) (f : α → β) :
    (p >>= fun value => Pure.pure (f value)) = fun input => (p input).map f := by
  funext input
  rw [Parser.bind_apply]
  cases p input <;> rfl

theorem Settles.bind_pure {f : α → β} (h : Settles p q bound) :
    Settles (p >>= fun value => Pure.pure (f value)) (q >>= fun value => Pure.pure (f value))
      bound := by
  rw [bind_pure_eq_map, bind_pure_eq_map]
  exact h.map

/-- What is left behind something that is taken is shorter. -/
theorem Settles.bind {next nextq : α → Parser β} (h : Settles p q (bound + 1)) (hp : p.Leaves)
    (hne : Consumes p) (hnext : ∀ value, Settles (next value) (nextq value) bound)
    (hleaves : ∀ value, (next value).Leaves) : Settles (p >>= next) (q >>= nextq) (bound + 1) := by
  intro taken middle lay value hlay hlength hrun
  obtain ⟨found, left, hfirst, hrest⟩ := Parser.bind_eq_done_iff.mp hrun
  -- What is taken is cut in two, at the place where the second part starts.
  have hleft := hleaves found left
  rw [hrest] at hleft
  obtain ⟨second, rfl⟩ : (middle ++ lay) <:+ left := hleft
  have hinput := hp (taken ++ (middle ++ lay))
  rw [hfirst] at hinput
  obtain ⟨first, htext⟩ : second ++ (middle ++ lay) <:+ taken ++ (middle ++ lay) := hinput
  obtain rfl : first ++ second = taken :=
    List.append_cancel_right ((List.append_assoc _ _ _).trans htext)
  rw [List.append_assoc] at hlength hfirst ⊢
  rw [← List.append_assoc second] at hfirst
  obtain ⟨hq, hpassed⟩ := h hlay hlength hfirst
  -- The first part takes something, and with it one step of the bound is paid.
  have hshort : (second ++ middle).length < bound := by
    have hne : first ≠ [] := by
      rintro rfl
      exact hne _ _ hfirst
    have hpos := List.length_pos_iff.mpr hne
    rw [List.length_append] at hlength
    omega
  obtain ⟨hnextq, hbehind⟩ := hnext found hlay hshort hrest
  refine ⟨Parser.bind_eq_done_iff.mpr ⟨found, second ++ middle, hq, hnextq⟩, fun after hafter => ?_⟩
  have hfront := hpassed after hafter
  rw [List.append_assoc] at hfront
  exact hfront.append (hbehind after hafter)

/-- Layout in front of what is taken. -/
theorem Settles.skip (h : Settles p q bound) (hp : p.Leaves) (hne : Consumes p) :
    Settles (fun input => p (skipLayout input)) (fun input => q (skipLayout input)) bound := by
  intro taken middle lay value hlay hlength hrun
  have hrun : p (skipLayout (taken ++ (middle ++ lay))) = .done value (middle ++ lay) := hrun
  have hleft := hp (skipLayout (taken ++ (middle ++ lay)))
  rw [hrun] at hleft
  -- The layout in front is not part of what settles, but of what is taken.
  obtain ⟨word, hword⟩ : middle ++ lay <:+ skipLayout (taken ++ (middle ++ lay)) := hleft
  cases word with
  | nil =>
    rw [← hword] at hrun
    exact absurd hrun (hne _ _)
  | cons c first =>
    obtain ⟨gap, first, hgap, rfl, hinner, hc⟩ :=
      exists_taken_of_skipLayout hword.symm (List.suffix_append _ _)
    obtain rfl := List.append_cancel_right hinner
    rw [← hword] at hrun
    have hshort : (c :: first ++ middle).length < bound := by
      simp only [List.length_append, List.length_cons] at hlength ⊢
      omega
    obtain ⟨hq, hpassed⟩ := h hlay hshort hrun
    have hskip : skipLayout (gap ++ c :: first ++ middle) = c :: first ++ middle := by
      rw [List.append_assoc]
      exact skipLayout_gap_cons hgap hc
    exact ⟨(congrArg q hskip).trans hq, fun after hafter =>
      .behind_gap hgap (List.cons_ne_nil _ _) (hpassed after hafter)⟩

end Parsers

/-! ## Tokens -/

theorem forall_head?_of_append {p : Char → Prop} (h : ∀ c ∈ (middle ++ lay).head?, p c) :
    ∀ c ∈ middle.head?, p c := by
  cases middle with
  | nil => exact fun c hc => by cases hc
  | cons d middle => exact h

theorem isSolid_of_isIdentChar (h : isIdentChar c = true) : isSolid c = true := by
  obtain ⟨hplain, hcomma, hblank⟩ := isPlain_of_isIdentChar h
  simp [isSolid, hplain, hcomma, hblank]

theorem settles_name (bound : Nat) : Settles name name bound := by
  intro taken middle lay id _ _ hrun
  obtain ⟨hname, htext, hnext⟩ := name_inv hrun
  obtain rfl := List.append_cancel_right htext
  refine ⟨name_append hname (forall_head?_of_append hnext), fun after _ => ?_⟩
  exact .of_solid (fun c hc => isSolid_of_isIdentChar (forall_isIdentChar hname.1 c hc)) _

theorem settles_word {text : String} (hsolid : ∀ c ∈ text.toList, isSolid c = true) (bound : Nat) :
    Settles (word text) (word text) bound := by
  intro taken middle lay _ _ _ hrun
  obtain ⟨htext, hnext⟩ := afterWord?_inv (word_inv hrun)
  obtain rfl := List.append_cancel_right htext
  refine ⟨?_, fun after _ => .of_solid hsolid _⟩
  rw [word, afterWord?_append (forall_head?_of_append hnext)]

theorem settles_integer (bound : Nat) : Settles integer integer bound := by
  intro taken middle lay value _ _ hrun
  obtain ⟨-, hchars, hnext, hother⟩ := integer_inv hrun
  refine ⟨hother middle (forall_head?_of_append hnext), fun after _ => .of_solid (fun c hc => ?_) _⟩
  rcases hchars c hc with rfl | hdigit
  · rfl
  · exact isSolid_of_isIdentChar (by simp [isIdentChar, Char.isAlphanum, hdigit])

theorem settles_literal (bound : Nat) : Settles literal literal bound := by
  intro taken middle lay value _ _ hrun
  have hshort : literal (taken ++ middle) = .done value middle := literal_truncate hrun
  refine ⟨hshort, fun after hafter => @Passed.literal taken _ value ?_⟩
  rw [← List.append_assoc]
  exact literal_append_of_unquoted hshort hafter

theorem settles_label (bound : Nat) : Settles (label name) (label name) bound := by
  intro taken middle lay found _ _ hrun
  obtain ⟨gap, hname, hgap, htext, hsign⟩ := exists_of_label hrun
  rw [List.append_cons, ← List.append_assoc found.toList] at htext
  obtain rfl := List.append_cancel_right htext
  have hshort : middle.head? ≠ some '=' := fun hhead => hsign (by simp [hhead])
  refine ⟨?_, fun after _ => ?_⟩
  · simpa using label_name hname hgap hshort
  · have hchars : ∀ c ∈ found.toList, isSolid c = true := fun c hc =>
      isSolid_of_isIdentChar (forall_isIdentChar hname.1 c hc)
    exact (Passed.of_solid hchars _).append
      (.behind_gap hgap (List.cons_ne_nil _ _) (passed_cons rfl _))

/-- Layout behind a text takes no label away. -/
theorem label_stuck_of_layout {left : List Char} (hlay : IsLayout lay)
    (h : label name (input ++ lay) = .stuck left) : ∃ left, label name input = .stuck left := by
  cases hrun : label name input with
  | stuck left => exact ⟨left, rfl⟩
  | done found rest =>
    -- A label that is read without the layout is read with it: layout does not double the equals
    -- sign.
    exfalso
    obtain ⟨gap, hname, hgap, rfl, hsign⟩ := exists_of_label hrun
    have hlong : (rest ++ lay).head? ≠ some '=' := by
      intro hhead
      rw [List.head?_append] at hhead
      cases hrest : rest.head? with
      | some c =>
        rw [hrest] at hhead hsign
        exact hsign hhead
      | none =>
        rw [hrest, Option.none_or] at hhead
        cases hlay.startsGap '=' hhead
    have hdone := label_name hname hgap hlong
    rw [List.append_assoc, List.append_assoc, List.cons_append, hdone] at h
    cases h

/-! ## Signs -/

/-- What the parser takes behind a character. -/
def behind {α : Type} (c : Char) (p : Parser α) : Parser α := fun input =>
  match after? c input with
  | some rest => p rest
  | none => .stuck input

section Behind

variable {α β : Type} {p q : Parser α} {bound : Nat}

theorem behind_cons (p : Parser α) : behind c p (c :: input) = p input := by
  simp [behind, after?]

theorem behind_inv {value : α} (h : behind c p input = .done value rest) :
    ∃ inner, input = c :: inner ∧ p inner = .done value rest := by
  unfold behind at h
  split at h
  · next inner hafter => exact ⟨inner, after?_eq_some_iff.mp hafter, h⟩
  · cases h

theorem leaves_behind (hp : p.Leaves) : (behind c p).Leaves := by
  intro input
  unfold behind
  split
  · next inner hafter => exact (hp inner).trans (isSuffix_of_after? hafter)
  · exact List.suffix_refl _

theorem consumes_behind (hp : p.Leaves) : Consumes (behind c p) := by
  intro input value hrun
  obtain ⟨inner, rfl, hinner⟩ := behind_inv hrun
  have hleft := hp inner
  rw [hinner] at hleft
  exact Nat.not_succ_le_self _ hleft.length_le

theorem behind_bind (next : α → Parser β) : behind c p >>= next = behind c (p >>= next) := by
  funext input
  simp only [Parser.bind_apply, behind]
  cases after? c input <;> rfl

theorem behind_map (f : α → β) :
    behind c (fun input => (p input).map f) = fun input => (behind c p input).map f := by
  funext input
  unfold behind
  split <;> rfl

/-- What is taken behind a character that is taken. -/
theorem exists_of_behind {value : α} (hp : p.Leaves)
    (hrun : behind c p (taken ++ rest) = .done value rest) :
    ∃ first, taken = c :: first ∧ p (first ++ rest) = .done value rest := by
  obtain ⟨inner, htext, hinner⟩ := behind_inv hrun
  have hleft := hp inner
  rw [hinner] at hleft
  obtain ⟨first, rfl⟩ : rest <:+ inner := hleft
  exact ⟨first, List.append_cancel_right htext, hinner⟩

theorem Settles.behind (h : Settles p q bound) (hp : p.Leaves) (hc : isSolid c = true) :
    Settles (behind c p) (behind c q) (bound + 1) := by
  intro taken middle lay value hlay hlength hrun
  obtain ⟨first, rfl, hfirst⟩ := exists_of_behind hp hrun
  obtain ⟨hq, hpassed⟩ := h hlay (Nat.lt_of_succ_lt_succ hlength) hfirst
  exact ⟨(behind_cons q).trans hq, fun after hafter => .cons hc (hpassed after hafter)⟩

/-- What is taken behind a character with layout in front of it. -/
theorem Settles.of_skipLayout {value : α} (h : Settles (Cookbook.behind c p) (Cookbook.behind c q) bound)
    (hp : p.Leaves) (hlay : IsLayout lay) (hlength : (taken ++ middle).length < bound)
    (hskip : skipLayout (taken ++ (middle ++ lay)) = c :: rest)
    (hrun : p rest = .done value (middle ++ lay)) :
    (∃ inner, skipLayout (taken ++ middle) = c :: inner ∧ q inner = .done value middle) ∧
      ∀ after, Unquoted after → Passed taken (middle ++ after) := by
  have hlong : Cookbook.behind c p (skipLayout (taken ++ (middle ++ lay))) =
      .done value (middle ++ lay) := by
    rw [hskip, behind_cons, hrun]
  obtain ⟨hdone, hpassed⟩ := h.skip (leaves_behind hp) (consumes_behind hp) hlay hlength hlong
  exact ⟨behind_inv hdone, hpassed⟩

end Behind

/-! ## Lists -/

section Lists

variable {α : Type} {item other : Parser α} {bound : Nat} {values : List α × Bool}

/-- One item with the layout around it and the separator behind it, in front of layout at the end of
the text and without that layout. -/
theorem settles_turn {left : List Char} {value : α} {d : Char} (h : Settles item other bound)
    (hitem : item.Leaves) (hd : startsGap d = false) (hlay : IsLayout lay)
    (hnext : after? close (skipLayout input) = none)
    (hrun : item (skipLayout input) = .done value left)
    (hskip : skipLayout left = d :: (middle ++ lay)) :
    ∃ first, input = first ++ d :: (middle ++ lay) ∧ ((first ++ d :: middle).length < bound →
      after? close (skipLayout (first ++ d :: middle)) = none ∧
      (∃ left', other (skipLayout (first ++ d :: middle)) = .done value left' ∧
        skipLayout left' = d :: middle) ∧
      ∀ after, Unquoted after → Inside first (d :: (middle ++ after))) := by
  obtain ⟨behind, hbehind, rfl, -⟩ := exists_gap_of_skipLayout hskip
  have hleft := hitem (skipLayout input)
  rw [hrun] at hleft
  obtain ⟨word, hword⟩ : behind ++ d :: (middle ++ lay) <:+ skipLayout input := hleft
  -- The first character behind the layout is there with and without the rest.
  obtain ⟨c, tail, hcons⟩ : ∃ c tail, word ++ (behind ++ [d]) = c :: tail :=
    List.exists_cons_of_ne_nil (by simp)
  have hwhole : ∀ text, word ++ (behind ++ d :: text) = c :: (tail ++ text) := by
    intro text
    rw [← List.cons_append, ← hcons]
    simp
  rw [hwhole] at hword
  obtain ⟨gap, hgap, rfl, hc⟩ := exists_gap_of_skipLayout hword.symm
  have hshort : skipLayout (gap ++ word ++ behind ++ d :: middle) = c :: (tail ++ middle) := by
    rw [List.append_assoc, List.append_assoc, hwhole]
    exact skipLayout_gap_cons hgap hc
  refine ⟨gap ++ word ++ behind, ?_, fun hlength => ?_⟩
  · rw [List.append_assoc, List.append_assoc, hwhole]
  · rw [← hword] at hnext hrun
    rw [← hwhole, ← List.cons_append, ← List.append_assoc behind] at hrun
    have hbound : (word ++ (behind ++ d :: middle)).length < bound := by
      simp only [List.length_append, List.length_cons] at hlength ⊢
      omega
    obtain ⟨hother, hpassed⟩ := h hlay hbound hrun
    rw [hwhole] at hother
    refine ⟨?_, ⟨_, hshort ▸ hother, skipLayout_gap_cons hbehind hd⟩, fun after hafter => ?_⟩
    · rw [hshort]
      simpa [after?] using hnext
    · have hinside := (hpassed after hafter).inside
      rw [List.append_assoc, List.cons_append] at hinside
      rw [List.append_assoc]
      refine (row_gap hgap _).inside.append ?_
      exact Inside.append hinside (row_gap hbehind _).inside

/-- A list in brackets. -/
theorem Separated.settles (h : Separated close item input values rest) (hclose : isClosing close = true)
    (hsettles : Settles item other bound) (hitem : item.Leaves) (hlay : IsLayout lay)
    (hrest : rest = middle ++ lay) :
    ∃ taken, input = taken ++ (middle ++ lay) ∧ ((taken ++ middle).length < bound →
      Separated close other (taken ++ middle) values middle ∧
      ∀ after, Unquoted after → Closes close taken (middle ++ after)) := by
  have hgap : startsGap close = false := by
    rcases eq_of_isClosing hclose with rfl | rfl | rfl <;> rfl
  -- The list is taken up to its closing bracket, and the layout at the end of the text stands
  -- behind that. So every item is read in front of something that is no layout.
  induction h generalizing middle with
  | nil hskip =>
    subst hrest
    obtain ⟨gap, hgap, rfl, hc⟩ := exists_gap_of_skipLayout hskip
    refine ⟨gap ++ [close], by simp, fun _ => ⟨.nil ?_, fun after _ => ?_⟩⟩
    · rw [List.append_assoc]
      exact skipLayout_gap_cons hgap hc
    · exact (row_gap hgap _).inside.closes (closes_self hclose _)
  | last hnext hrun hskip =>
    subst hrest
    obtain ⟨first, rfl, hshort⟩ := settles_turn hsettles hitem hgap hlay hnext hrun hskip
    refine ⟨first ++ [close], by simp, fun hlength => ?_⟩
    rw [List.append_assoc, List.singleton_append] at hlength ⊢
    obtain ⟨hnext, ⟨left, hother, hleft⟩, hinside⟩ := hshort hlength
    exact ⟨.last hnext hother hleft, fun after hafter =>
      Inside.closes (hinside after hafter) (closes_self hclose _)⟩
  | cons hnext hrun hskip _ ih =>
    -- The items behind the comma first, since they tell where the text of this item ends.
    obtain ⟨second, rfl, hmore⟩ := ih hrest
    rw [← List.append_assoc] at hskip
    obtain ⟨first, rfl, hshort⟩ := settles_turn hsettles hitem rfl hlay hnext hrun hskip
    refine ⟨first ++ ',' :: second, by simp, fun hlength => ?_⟩
    rw [List.append_assoc, List.cons_append] at hlength ⊢
    obtain ⟨hnext, ⟨left, hother, hleft⟩, hinside⟩ := hshort hlength
    obtain ⟨hseparated, hcloses⟩ := hmore (by
      simp only [List.length_append, List.length_cons] at hlength ⊢
      omega)
    refine ⟨.cons hnext hother hleft hseparated, fun after hafter => ?_⟩
    refine Inside.closes ?_ (closes_cons rfl (hcloses after hafter))
    have hbehind := hinside after hafter
    rwa [List.append_assoc] at hbehind

/-- A list in parentheses. -/
theorem settles_group {fuel less : Nat} (h : Settles item other bound) (hitem : item.Leaves)
    (hother : other.Leaves) (hless : bound ≤ less) :
    Settles (behind '(' (separated ')' item fuel)) (behind '(' (separated ')' other less))
      (bound + 1) := by
  intro taken middle lay values hlay hlength hrun
  obtain ⟨first, rfl, hfirst⟩ := exists_of_behind (leaves_separated hitem fuel) hrun
  have hshort : (first ++ middle).length < bound := Nat.lt_of_succ_lt_succ hlength
  obtain ⟨taken, htext, hsettled⟩ := (Separated.of_run hfirst).settles rfl h hitem hlay rfl
  obtain rfl := List.append_cancel_right htext
  obtain ⟨hseparated, hcloses⟩ := hsettled hshort
  have hdone := hseparated.run hother (by decide) (Nat.lt_of_lt_of_le hshort hless)
  exact ⟨(behind_cons _).trans hdone, fun after hafter => .group rfl (hcloses after hafter)⟩

end Lists

end Cookbook
