import Cookbook.Proofs.Registration.Settling

/-!
# The texts of rules

The parser of expressions settles: so do the parsers of all terms, by induction on the fuel.

## Main results

* `settles_access`, `settles_sum`, `settles_choice`: terms, if their parts do.
* `settles_expression`: expressions.
-/

namespace Cookbook

open Cookbook.Text Cookbook.Grammar

variable {taken middle lay : List Char} {e f : Parser Term} {bound fuel less : Nat}

/-! ## Arguments and names -/

theorem settles_argument (h : Settles e f bound) (he : e.Leaves) :
    Settles (argument e) (argument f) bound := by
  intro taken middle lay value hlay hlength hrun
  unfold argument at hrun ⊢
  cases hlabel : label name (taken ++ (middle ++ lay)) with
  | done found left =>
    rw [hlabel] at hrun
    -- A label and its value are read one after the other.
    have hlabelled := (settles_label (bound + 1)).bind (leaves_label leaves_name) consumes_label
      (fun found => h.map (f := fun value => (⟨some found, value⟩ : Argument Term)))
      fun found input => by
        rw [Outcome.rest_map]
        exact he input
    obtain ⟨hdone, hpassed⟩ := hlabelled hlay (Nat.lt_succ_of_lt hlength)
      (Parser.bind_eq_done_iff.mpr ⟨found, left, hlabel, hrun⟩)
    obtain ⟨found, left, hlabel, hrun⟩ := Parser.bind_eq_done_iff.mp hdone
    rw [hlabel]
    exact ⟨hrun, hpassed⟩
  | stuck left =>
    rw [hlabel] at hrun
    rw [← List.append_assoc] at hlabel
    obtain ⟨other, hshort⟩ := label_stuck_of_layout hlay hlabel
    rw [hshort]
    exact h.map hlay hlength hrun

/-- The arguments of a call. -/
theorem settles_arguments (h : Settles e f bound) (he : e.Leaves) (hf : f.Leaves)
    (hless : bound ≤ less) :
    Settles (behind '(' (arguments e fuel)) (behind '(' (arguments f less)) (bound + 1) := by
  have hgroup := (@settles_group _ _ _ _ fuel _ (settles_argument h he) (leaves_argument he)
    (leaves_argument hf) hless).map (f := Prod.fst)
  rwa [← behind_map, ← behind_map] at hgroup

theorem settles_reference (h : Settles e f bound) (he : e.Leaves) (hf : f.Leaves)
    (hless : bound ≤ less) (id : String) :
    Settles (reference e fuel id) (reference f less id) (bound + 1) := by
  intro taken middle lay value hlay hlength hrun
  unfold reference at hrun ⊢
  -- A constant is taken without looking at what follows.
  split at hrun
  · next htrue =>
    rw [if_pos htrue]
    exact settles_pure _ _ hlay hlength hrun
  · next htrue =>
    rw [if_neg htrue]
    split at hrun
    · next hfalse =>
      rw [if_pos hfalse]
      exact settles_pure _ _ hlay hlength hrun
    · next hfalse =>
      rw [if_neg hfalse]
      split at hrun
      · next hnone =>
        rw [if_pos hnone]
        exact settles_pure _ _ hlay hlength hrun
      · next hnone =>
        rw [if_neg hnone]
        split at hrun
        · next inner htext =>
          have hmarked := ((settles_arguments h he hf hless).behind
            (leaves_behind (leaves_arguments he fuel)) (c := '!') rfl).map (f := Term.macroCall id)
          have hlong : (behind '!' (behind '(' (arguments e fuel)) (taken ++ (middle ++ lay))).map
              (Term.macroCall id) = .done value (middle ++ lay) := by
            rw [htext, behind_cons, behind_cons]
            exact hrun
          obtain ⟨hdone, hpassed⟩ := hmarked hlay (Nat.lt_succ_of_lt hlength) hlong
          obtain ⟨found, hfound, rfl⟩ := map_eq_done hdone
          obtain ⟨_, hmark, hcall⟩ := behind_inv hfound
          obtain ⟨inner, rfl, hinner⟩ := behind_inv hcall
          refine ⟨?_, hpassed⟩
          rw [hmark]
          exact congrArg (Outcome.map (Term.macroCall id)) hinner
        · next _ hother =>
          obtain ⟨rfl, htext⟩ := Outcome.done.inj hrun
          obtain rfl : taken = [] := List.append_left_eq_self.mp htext
          refine ⟨?_, fun after _ => passed_nil _⟩
          rw [List.nil_append]
          split
          · next inner => exact absurd rfl (hother (inner ++ lay))
          · rfl

/-! ## Primaries -/

theorem consumes_barePrimary (he : e.Leaves) : Consumes (barePrimary e fuel) := by
  intro input value hrun
  unfold barePrimary at hrun
  split at hrun
  · cases hrun
  · next rest =>
    obtain ⟨found, hfound, -⟩ := map_eq_done hrun
    exact consumes_behind (leaves_separated he fuel) _ _ ((behind_cons _).trans hfound)
  · next c rest _ =>
    split at hrun
    · obtain ⟨found, hfound, -⟩ := map_eq_done hrun
      exact consumes_literal _ _ hfound
    · split at hrun
      · obtain ⟨found, hfound, -⟩ := map_eq_done hrun
        exact consumes_integer _ _ hfound
      · exact consumes_name.bind leaves_name (fun id => leaves_reference he fuel id) _ _ hrun

theorem settles_barePrimary (h : Settles e f bound) (he : e.Leaves) (hf : f.Leaves)
    (hless : bound ≤ less) : Settles (barePrimary e fuel) (barePrimary f less) (bound + 1) := by
  intro taken middle lay value hlay hlength hrun
  cases taken with
  | nil => exact absurd hrun (consumes_barePrimary he _ _)
  | cons c first =>
    -- The first character tells what is read, and it is the same without the layout at the end.
    by_cases hgroup : c = '('
    · subst hgroup
      have hsettles := (@settles_group _ e f _ fuel less h he hf hless).map (f := groupTerm)
      rw [← behind_map, ← behind_map] at hsettles
      obtain ⟨hdone, hpassed⟩ := hsettles hlay hlength ((behind_cons _).trans hrun)
      exact ⟨(@behind_cons '(' _ _ _).symm.trans hdone, hpassed⟩
    · rw [List.cons_append, barePrimary.eq_3 _ _ _ _ hgroup] at hrun ⊢
      split at hrun
      · next hquote =>
        rw [if_pos hquote]
        exact (settles_literal _).map hlay hlength hrun
      · next hquote =>
        rw [if_neg hquote]
        split at hrun
        · next hsign =>
          rw [if_pos hsign]
          exact (settles_integer _).map hlay hlength hrun
        · next hsign =>
          rw [if_neg hsign]
          exact ((settles_name _).bind leaves_name consumes_name
            (fun id => settles_reference h he hf hless id) (fun id => leaves_reference he fuel id))
            hlay (Nat.lt_succ_of_lt hlength) hrun

theorem settles_primary (h : Settles e f bound) (he : e.Leaves) (hf : f.Leaves)
    (hless : bound ≤ less) : Settles (primary e fuel) (primary f less) (bound + 1) :=
  (settles_barePrimary h he hf hless).skip (leaves_barePrimary he fuel) (consumes_barePrimary he)

/-! ## Fields and calls -/

/-- A text that starts in front of layout with nothing that could go on with an expression does not do
so without the layout. -/
theorem skipLayout_ne_of_append {left : List Char} {d : Char}
    (h : ∀ rest, skipLayout (middle ++ lay) ≠ d :: rest) : skipLayout middle ≠ d :: left :=
  fun hskip => h _ (skipLayout_append hskip lay)

theorem settles_accesses (h : Settles e f bound) (he : e.Leaves) (hf : f.Leaves) (term : Term) :
    Settles (accesses e fuel term) (accesses f less term) (min (bound + 1) less) := by
  -- The induction is on the fuel of the run that is known; that of the other run is only known to
  -- be enough. Each access makes a longer term and goes on with less fuel.
  induction fuel generalizing less term with
  | zero =>
    intro taken middle lay value _ _ hrun
    cases hrun
  | succ fuel ih =>
    intro taken middle lay value hlay hlength hrun
    cases less with
    | zero => exact absurd (Nat.lt_of_lt_of_le hlength (Nat.min_le_right _ _)) (Nat.not_lt_zero _)
    | succ less =>
      rw [Nat.add_min_add_right] at hlength
      have hmore := fun next => @Settles.mono _ _ _ _ (min bound less) (@ih less next) (by omega)
      have hleaves := fun next => leaves_accesses he fuel next
      rw [accesses] at hrun ⊢
      dsimp only at hrun ⊢
      split at hrun
      · next rest hskip =>
        -- A dot, and the name of a field behind it.
        have hnamed := leaves_name.bind fun field => hleaves (.attribute term field)
        have hfield := ((settles_name _).bind leaves_name consumes_name
          (fun field => hmore (.attribute term field)) fun field => hleaves _).skip hnamed
          (consumes_name.bind leaves_name fun field => hleaves _)
        have hlayout := leaves_layout.bind fun _ => hnamed
        obtain ⟨⟨inner, hinner, hdone⟩, hpassed⟩ := (hfield.behind hlayout rfl).of_skipLayout hlayout
          hlay (Nat.lt_succ_of_lt hlength) hskip hrun
        refine ⟨?_, hpassed⟩
        rw [hinner]
        exact hdone
      · next rest hskip =>
        -- A parenthesis, and arguments behind it.
        have harguments := @settles_arguments _ _ _ fuel _ (h.mono (Nat.min_le_left bound less)) he hf
          (Nat.min_le_right bound less)
        have hcall := harguments.bind (leaves_behind (leaves_arguments he fuel))
          (consumes_behind (leaves_arguments he fuel)) (fun found => hmore (.call term found))
          fun found => hleaves _
        rw [behind_bind, behind_bind] at hcall
        obtain ⟨⟨inner, hinner, hdone⟩, hpassed⟩ := hcall.of_skipLayout
          ((leaves_arguments he fuel).bind fun _ => hleaves _) hlay hlength hskip hrun
        refine ⟨?_, hpassed⟩
        rw [hinner]
        exact hdone
      · next hdot hopen =>
        -- Neither follows, so nothing is taken; nor does one follow in the shorter text.
        obtain ⟨rfl, htext⟩ := Outcome.done.inj hrun
        obtain rfl : taken = [] := List.append_left_eq_self.mp htext
        refine ⟨?_, fun after _ => passed_nil _⟩
        split
        · next hskip => exact absurd hskip (skipLayout_ne_of_append hdot)
        · next hskip => exact absurd hskip (skipLayout_ne_of_append hopen)
        · rfl

theorem consumes_primary (he : e.Leaves) : Consumes (primary e fuel) :=
  (consumes_barePrimary he).skip (leaves_barePrimary he fuel)

theorem consumes_access (he : e.Leaves) : Consumes (access e fuel) :=
  (consumes_primary he).bind (leaves_primary he fuel) fun term => leaves_accesses he fuel term

theorem settles_access (h : Settles e f bound) (he : e.Leaves) (hf : f.Leaves)
    (hless : bound < less) : Settles (access e fuel) (access f less) (bound + 1) := by
  refine (settles_primary h he hf (Nat.le_of_lt hless)).bind (leaves_primary he fuel)
    (consumes_primary he) (fun term => ?_) fun term => leaves_accesses he fuel term
  exact (settles_accesses h he hf term).mono (by omega)

/-! ## Sums and choices -/

theorem settles_summands {depth other : Nat} (h : Settles e f bound) (he : e.Leaves) (hf : f.Leaves)
    (hother : bound < other) :
    Settles (summands e depth fuel) (summands f other less) (min (bound + 1) less) := by
  induction fuel generalizing less with
  | zero =>
    intro taken middle lay value _ _ hrun
    cases hrun
  | succ fuel ih =>
    intro taken middle lay value hlay hlength hrun
    cases less with
    | zero => exact absurd (Nat.lt_of_lt_of_le hlength (Nat.min_le_right _ _)) (Nat.not_lt_zero _)
    | succ less =>
      rw [Nat.add_min_add_right] at hlength
      rw [summands] at hrun ⊢
      dsimp only at hrun ⊢
      split at hrun
      · next rest hskip =>
        -- A plus sign, an access, and what follows it with less fuel.
        have hmore := fun part => (@Settles.mono _ _ _ _ (min bound less) (@ih less) (by omega)).bind_pure
          (f := fun parts => part :: parts)
        have hleaves := fun part => (leaves_summands he depth fuel).bind fun parts =>
          Parser.leaves_pure (part :: parts)
        have haccess := @Settles.mono _ _ _ _ (min bound less + 1)
          (@settles_access _ _ _ depth _ h he hf hother) (by omega)
        have hpart := haccess.bind (leaves_access he depth) (consumes_access he) hmore hleaves
        have hleavesPart := (leaves_access he depth).bind hleaves
        obtain ⟨⟨inner, hinner, hdone⟩, hpassed⟩ := (hpart.behind hleavesPart rfl).of_skipLayout
          hleavesPart hlay (Nat.lt_succ_of_lt hlength) hskip hrun
        refine ⟨?_, hpassed⟩
        rw [hinner]
        exact hdone
      · next hplus =>
        -- No plus sign follows, and none follows in the shorter text.
        obtain ⟨rfl, htext⟩ := Outcome.done.inj hrun
        obtain rfl : taken = [] := List.append_left_eq_self.mp htext
        refine ⟨?_, fun after _ => passed_nil _⟩
        split
        · next hskip => exact absurd hskip (skipLayout_ne_of_append hplus)
        · rfl

theorem consumes_sum (he : e.Leaves) : Consumes (sum e fuel) :=
  (consumes_access he).bind (leaves_access he fuel) fun _ =>
    (leaves_summands he fuel fuel).bind fun _ => Parser.leaves_pure _

theorem settles_sum (h : Settles e f bound) (he : e.Leaves) (hf : f.Leaves)
    (hless : bound < less) : Settles (sum e fuel) (sum f less) (bound + 1) := by
  refine (settles_access h he hf hless).bind (leaves_access he fuel) (consumes_access he)
    (fun first => ?_) fun first => (leaves_summands he fuel fuel).bind fun _ => Parser.leaves_pure _
  exact ((settles_summands h he hf hless).mono (by omega)).bind_pure

/-- What stands behind the word `if`. -/
def branches (e : Parser Term) (fuel : Nat) (thenBranch : Term) : Parser Term := do
  let condition ← sum e fuel
  layout
  word "else"
  let otherwise ← e
  return .conditional thenBranch condition otherwise

theorem leaves_branches (he : e.Leaves) (thenBranch : Term) : (branches e fuel thenBranch).Leaves :=
  (leaves_sum he fuel).bind fun _ => leaves_layout.bind fun _ =>
    (leaves_word "else").bind fun _ => he.bind fun _ => Parser.leaves_pure _

theorem settles_branches (h : Settles e f bound) (he : e.Leaves) (hf : f.Leaves)
    (hless : bound < less) (thenBranch : Term) :
    Settles (branches e fuel thenBranch) (branches f less thenBranch) (bound + 1) := by
  have hpure := fun condition => he.bind fun otherwise =>
    Parser.leaves_pure (Term.conditional thenBranch condition otherwise)
  have helse := fun condition => (leaves_word "else").bind fun _ => hpure condition
  refine (settles_sum h he hf hless).bind (leaves_sum he fuel) (consumes_sum he) (fun condition => ?_)
    fun condition => leaves_layout.bind fun _ => helse condition
  have hsettles := @settles_word "else" (List.all_eq_true.mp (by decide)) (bound + 1)
  have hotherwise := (hsettles.bind (leaves_word "else") (consumes_word (by decide)) (fun _ => h.bind_pure) fun _ => hpure condition).skip
    (helse condition)
    ((consumes_word (by decide)).bind (leaves_word "else") fun _ => hpure condition)
  exact hotherwise.mono (Nat.le_succ bound)

/-- No word stands at the start of a text that stands there in front of layout only. -/
theorem afterWord?_of_layout {text : String} (hlay : IsLayout lay) (hne : text.toList ≠ [])
    (h : afterWord? text (skipLayout (middle ++ lay)) = none) :
    afterWord? text (skipLayout middle) = none := by
  cases hafter : afterWord? text (skipLayout middle) with
  | none => rfl
  | some left =>
    exfalso
    obtain ⟨htext, hnext⟩ := afterWord?_inv hafter
    obtain ⟨c, word, hword⟩ := List.exists_cons_of_ne_nil hne
    have hlong : skipLayout (middle ++ lay) = text.toList ++ (left ++ lay) := by
      rw [hword, List.cons_append] at htext ⊢
      rw [skipLayout_append htext lay, List.append_assoc]
    have hend : ∀ c ∈ (left ++ lay).head?, isIdentChar c = false := by
      cases left with
      | nil => exact fun c hc => (of_startsGap (hlay.startsGap c hc)).1
      | cons d left => exact hnext
    rw [hlong, afterWord?_append hend] at h
    cases h

theorem settles_choice (h : Settles e f bound) (he : e.Leaves) (hf : f.Leaves)
    (hless : bound < less) : Settles (choice e fuel) (choice f less) (bound + 1) := by
  intro taken middle lay value hlay hlength hrun
  unfold choice at hrun
  split at hrun
  · cases hrun
  · next thenBranch left hsum =>
    split at hrun
    · next hif =>
      -- A sum alone. The word that does not follow it does not follow in the shorter text either.
      obtain ⟨rfl, rfl⟩ := Outcome.done.inj hrun
      obtain ⟨hdone, hpassed⟩ := settles_sum h he hf hless hlay hlength hsum
      refine ⟨?_, hpassed⟩
      unfold choice
      simp only [hdone, afterWord?_of_layout hlay (by decide) hif]
    · next behindIf hif =>
      -- A sum, the word, and the rest of the conditional: a sequence that settles part by part.
      have hword := fun thenBranch => (leaves_word "if").bind fun _ =>
        @leaves_branches _ fuel he thenBranch
      have hsettles := @settles_word "if" (List.all_eq_true.mp (by decide)) (bound + 1)
      have hbranches := fun thenBranch => (hsettles.bind (leaves_word "if") (consumes_word (by decide))
        (fun _ => (@settles_branches _ _ _ fuel _ h he hf hless thenBranch).mono (Nat.le_succ bound))
        fun _ => leaves_branches he thenBranch).skip (hword thenBranch)
        ((consumes_word (by decide)).bind (leaves_word "if") fun _ => leaves_branches he thenBranch)
      have hchoice := (@settles_sum _ _ _ fuel _ h he hf hless).bind (leaves_sum he fuel)
        (consumes_sum he) (fun thenBranch => (hbranches thenBranch).mono (Nat.le_succ bound))
        fun thenBranch => leaves_layout.bind fun _ => hword thenBranch
      have hif : word "if" (skipLayout left) = .done () behindIf := by rw [word, hif]
      obtain ⟨hdone, hpassed⟩ := hchoice hlay hlength
        (Parser.bind_eq_done_iff.mpr ⟨thenBranch, left, hsum,
          Parser.bind_eq_done_iff.mpr ⟨(), behindIf, hif, hrun⟩⟩)
      refine ⟨?_, hpassed⟩
      -- The sequence is taken apart again, as the reader of choices has it.
      obtain ⟨thenBranch, left, hsum, hbranches⟩ := Parser.bind_eq_done_iff.mp hdone
      obtain ⟨_, behindIf, hword, hbranches⟩ := Parser.bind_eq_done_iff.mp hbranches
      unfold choice
      simp only [hsum, word_inv hword]
      exact hbranches

/-- Expressions. -/
theorem settles_expression (fuel bound : Nat) :
    Settles (expression fuel) (expression bound) bound := by
  induction fuel generalizing bound with
  | zero =>
    intro taken middle lay value _ _ hrun
    cases hrun
  | succ fuel ih =>
    intro taken middle lay value hlay hlength hrun
    cases bound with
    | zero => exact absurd hlength (Nat.not_lt_zero _)
    | succ bound =>
      exact settles_choice (ih bound) (leaves_expression fuel) (leaves_expression bound)
        (Nat.lt_succ_self bound) hlay hlength hrun

theorem consumes_choice (he : e.Leaves) : Consumes (choice e fuel) := by
  intro input value hrun
  have hsum := leaves_sum he fuel input
  unfold choice at hrun
  split at hrun
  · cases hrun
  · next thenBranch left heq =>
    rw [heq] at hsum
    split at hrun
    · cases hrun
      exact consumes_sum he _ _ heq
    · next behindIf hif =>
      have hbranches := @leaves_branches _ fuel he thenBranch behindIf
      have hdone : branches e fuel thenBranch behindIf = .done value input := hrun
      rw [hdone] at hbranches
      -- Even with branches, an expression that leaves as much as it was given would have to come
      -- from a sum that does.
      have hleft : input <:+ left :=
        hbranches.trans ((isSuffix_of_afterWord? hif).trans (skipLayout_isSuffix left))
      obtain rfl : left = input := List.IsSuffix.eq_of_length_le hsum hleft.length_le
      exact consumes_sum he _ _ heq

theorem consumes_expression (fuel : Nat) : Consumes (expression fuel) := by
  intro input value hrun
  cases fuel with
  | zero => cases hrun
  | succ fuel => exact consumes_choice (leaves_expression fuel) _ _ hrun

end Cookbook
