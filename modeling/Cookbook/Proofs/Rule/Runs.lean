import Mathlib.Data.List.TakeWhile
import Cookbook.Proofs.Rule.RoundTrip
import Cookbook.Proofs.Rule.Suffixes

/-!
# Runs of the parsers

What a value that a parser makes says about the text. The loop over a list has its runs as a relation
without fuel, and the formals that are read are formals as they are written.

## Main definitions

* `Consumes`: the parser takes something whenever it makes a value.
* `Separated`: the runs of the loop over a list.

## Main results

* `name_inv`, `word_inv`, `integer_inv`, `label_inv`: the tokens.
* `Separated.of_run`, `Separated.run`: the loop makes the runs for which it has the fuel, and no other.
* `exists_of_formals`: formals are read alike in front of anything.
-/

namespace Cookbook

open Cookbook.Text Cookbook.Grammar

variable {c close : Char} {input taken rest gap : List Char}

/-! ## Parsers that take something -/

section Consumes

variable {α β : Type} {p : Parser α}

/-- The parser takes something whenever it makes a value. -/
def Consumes (p : Parser α) : Prop :=
  ∀ input value, p input ≠ .done value input

theorem Consumes.bind {next : α → Parser β} (h : Consumes p) (hp : p.Leaves)
    (hleaves : ∀ value, (next value).Leaves) : Consumes (p >>= next) := by
  intro input value hrun
  obtain ⟨found, left, hfirst, hrest⟩ := Parser.bind_eq_done_iff.mp hrun
  have hinput := hp input
  rw [hfirst] at hinput
  have hleft := hleaves found left
  rw [hrest] at hleft
  have hwhole : left = input := List.IsSuffix.eq_of_length_le hinput hleft.length_le
  exact h input found (hwhole ▸ hfirst)

/-- Layout in front makes no difference to it. -/
theorem Consumes.skip (h : Consumes p) (hp : p.Leaves) :
    Consumes (fun input => p (skipLayout input)) := by
  intro input value hrun
  have hrun : p (skipLayout input) = .done value input := hrun
  have hleft := hp (skipLayout input)
  rw [hrun] at hleft
  have hwhole : input = skipLayout input :=
    List.IsSuffix.eq_of_length_le hleft (skipLayout_isSuffix input).length_le
  rw [← hwhole] at hrun
  exact h input value hrun

end Consumes

/-! ## Tokens -/

/-- A name that is taken ends in front of something that does not continue it. -/
theorem name_inv {id : String} (h : name input = .done id rest) :
    IsName id ∧ input = id.toList ++ rest ∧ ∀ c ∈ rest.head?, isIdentChar c = false := by
  unfold name at h
  split at h
  · next found left hrun =>
    split at h
    · cases h
    · next hreserved =>
      cases h
      obtain ⟨hid, htext, hend⟩ := identifier_inv hrun
      exact ⟨⟨hid, hreserved⟩, htext, hend⟩
  · cases h

theorem consumes_name : Consumes name := by
  intro input id hrun
  obtain ⟨hname, htext, -⟩ := name_inv hrun
  obtain ⟨c, tail, hid, -⟩ := exists_cons_of_isIdentifier hname.1
  rw [hid] at htext
  have hlength := congrArg List.length htext
  simp only [List.length_append, List.length_cons] at hlength
  omega

theorem afterWord?_inv {text : String} (h : afterWord? text input = some rest) :
    input = text.toList ++ rest ∧ ∀ c ∈ rest.head?, isIdentChar c = false := by
  unfold afterWord? at h
  split at h
  · next hprefix =>
    cases h
    exact ⟨eq_append_of_isPrefixOf? hprefix, fun c hc => by cases hc⟩
  · next c after hprefix =>
    split at h
    · cases h
    · next hc =>
      cases h
      exact ⟨eq_append_of_isPrefixOf? hprefix, by simpa using hc⟩
  · cases h

theorem word_inv {text : String} (h : word text input = .done () rest) :
    afterWord? text input = some rest := by
  unfold word at h
  split at h
  · next hafter =>
    cases h
    exact hafter
  · cases h

theorem consumes_word {text : String} (hne : text.toList ≠ []) : Consumes (word text) := by
  intro input _ hrun
  obtain ⟨htext, -⟩ := afterWord?_inv (word_inv hrun)
  exact hne (List.append_left_eq_self.mp htext.symm)

/-- The sign in front of digits is found whatever follows these. -/
theorem minusSign_append {negative : Bool} {digits written : List Char}
    (h : minusSign input = (negative, digits)) (hdigits : digits = written ++ rest)
    (hwritten : ∀ c ∈ written, c.isDigit = true) (hne : written ≠ []) :
    ∃ sign, input = sign ++ digits ∧ (∀ c ∈ sign, c = '-') ∧
      ∀ other, minusSign (sign ++ (written ++ other)) = (negative, written ++ other) := by
  obtain ⟨c, tail, rfl⟩ := List.exists_cons_of_ne_nil hne
  unfold minusSign at h
  split at h
  · cases h
    exact ⟨['-'], rfl, by simp, fun other => rfl⟩
  · cases h
    refine ⟨[], rfl, List.forall_mem_nil _, fun other => minusSign.eq_2 _ ?_⟩
    have hc : c ≠ '-' := by
      rintro rfl
      cases hwritten '-' List.mem_cons_self
    simp [hc]

/-- An integer is taken in front of anything but another digit. -/
theorem integer_inv {value : Int64} (h : integer (taken ++ rest) = .done value rest) :
    taken ≠ [] ∧ (∀ c ∈ taken, c = '-' ∨ c.isDigit = true) ∧ (∀ c ∈ rest.head?, c.isDigit = false) ∧
      ∀ other, (∀ c ∈ other.head?, c.isDigit = false) →
        integer (taken ++ other) = .done value other := by
  unfold integer at h
  cases hsign : minusSign (taken ++ rest) with
  | mk negative digits =>
    simp only [hsign] at h
    split at h
    · cases h
    · next hempty =>
      -- Neither the value nor its range depends on what follows.
      generalize hnumber : (if negative = true then -(_ : Int) else _) = number at h
      split at h
      · next hrange =>
        cases h
        have hdigits := (List.takeWhile_append_dropWhile (p := Char.isDigit) (l := digits)).symm
        have hwritten : ∀ c ∈ digits.takeWhile Char.isDigit, c.isDigit = true := fun c =>
          List.mem_takeWhile_imp
        have hnext := List.head?_dropWhile_not Char.isDigit digits
        have hne : digits.takeWhile Char.isDigit ≠ [] := fun hnil => hempty (by rw [hnil]; rfl)
        generalize digits.takeWhile Char.isDigit = written at hempty hnumber hdigits hwritten hne
        generalize digits.dropWhile Char.isDigit = rest at hdigits hnext hsign ⊢
        obtain ⟨sign, htext, hminus, hother⟩ := minusSign_append hsign hdigits hwritten hne
        rw [hdigits, ← List.append_assoc] at htext
        obtain rfl := List.append_cancel_right htext
        refine ⟨by simp [hne], fun c hc => ?_, fun c hc => ?_, fun other hnextOther => ?_⟩
        · exact (List.mem_append.mp hc).imp (hminus c) (hwritten c)
        · rw [Option.mem_def.mp hc] at hnext
          simpa using hnext
        · obtain ⟨htake, hdrop⟩ := takeWhile_append_of_boundary hwritten hnextOther
          unfold integer
          rw [List.append_assoc, hother]
          simp only [htake, hdrop, hnumber]
          rw [if_neg hempty, if_pos hrange]
      · cases h

theorem consumes_integer : Consumes integer := by
  intro input value hrun
  exact (@integer_inv [] input value hrun).1 rfl

theorem consumes_literal : Consumes literal :=
  fun _ _ hrun => Nat.lt_irrefl _ (length_lt_of_literal hrun)

/-! ## Labels -/

theorem label_inv {id : Parser String} {found : String} (h : label id input = .done found rest) :
    ∃ left, id input = .done found left ∧ skipLayout left = '=' :: rest ∧ rest.head? ≠ some '=' := by
  unfold label at h
  split at h
  · cases h
  · next id left hrun =>
    split at h
    · cases h
    · next after hdouble hskip =>
      cases h
      refine ⟨left, hrun, hskip, fun hhead => ?_⟩
      obtain ⟨tail, rfl⟩ : ∃ tail, rest = '=' :: tail := List.head?_eq_some_iff.mp hhead
      exact hdouble tail rfl
    · cases h

/-- A name with a gap and an equals sign behind it is a label in front of anything but another equals
sign. -/
theorem exists_of_label {found : String} (h : label name input = .done found rest) :
    ∃ gap, IsName found ∧ IsGap gap ∧ input = found.toList ++ (gap ++ '=' :: rest) ∧
      rest.head? ≠ some '=' := by
  obtain ⟨left, hrun, hskip, hsign⟩ := label_inv h
  obtain ⟨hname, rfl, -⟩ := name_inv hrun
  obtain ⟨gap, hgap, rfl, -⟩ := exists_gap_of_skipLayout hskip
  exact ⟨gap, hname, hgap, rfl, hsign⟩

theorem label_name {found : String} (hname : IsName found) (hgap : IsGap gap)
    (hsign : rest.head? ≠ some '=') :
    label name (found.toList ++ (gap ++ '=' :: rest)) = .done found rest := by
  have hnext : ∀ c ∈ (gap ++ '=' :: rest).head?, isIdentChar c = false := fun c hc =>
    (boundary_gap hgap (Boundary.cons (c := '=') rfl) c hc).1
  exact label_done (name_append hname hnext) hgap hsign

theorem consumes_label : Consumes (label name) := by
  intro input found hrun
  obtain ⟨gap, -, -, htext, -⟩ := exists_of_label hrun
  have hlength := congrArg List.length htext
  simp only [List.length_append, List.length_cons] at hlength
  omega

/-! ## Lists -/

/-- The runs of the loop over a list, without their fuel. -/
inductive Separated {α : Type} (close : Char) (item : Parser α) :
    List Char → List α × Bool → List Char → Prop where
  | nil {input rest : List Char} (hclose : skipLayout input = close :: rest) :
      Separated close item input ([], true) rest
  | last {input left rest : List Char} {value : α}
      (hnext : after? close (skipLayout input) = none)
      (hitem : item (skipLayout input) = .done value left) (hclose : skipLayout left = close :: rest) :
      Separated close item input ([value], false) rest
  | cons {input left more rest : List Char} {value : α} {values : List α} {comma : Bool}
      (hnext : after? close (skipLayout input) = none)
      (hitem : item (skipLayout input) = .done value left) (hcomma : skipLayout left = ',' :: more)
      (hmore : Separated close item more (values, comma) rest) :
      Separated close item input (value :: values, comma) rest

section Lists

variable {α : Type} {item : Parser α} {fuel : Nat} {values : List α × Bool}

theorem after?_eq_some_iff : after? c input = some rest ↔ input = c :: rest := by
  cases input with
  | nil => simp [after?]
  | cons d input =>
    by_cases hd : d = c <;> simp [after?, hd]

theorem Separated.of_run (h : separated close item fuel input = .done values rest) :
    Separated close item input values rest := by
  -- A turn ends with the closing bracket, with an error, or with a comma and another turn.
  induction fuel generalizing input values with
  | zero => cases h
  | succ fuel ih =>
    rw [separated] at h
    dsimp only at h
    split at h
    · next hclose =>
      cases h
      exact .nil (after?_eq_some_iff.mp hclose)
    · next hnext =>
      split at h
      · cases h
      · next value more hrun =>
        obtain ⟨found, left, hitem, hlayout⟩ := Parser.bind_eq_done_iff.mp hrun
        obtain ⟨⟨values, comma⟩, hmore, rfl⟩ := map_eq_done h
        obtain ⟨_, more, hskip, hdone⟩ := Parser.bind_eq_done_iff.mp hlayout
        cases hdone
        exact .cons hnext hitem (Outcome.done.inj hskip).2 (ih hmore)
      · next value left' _ hrun =>
        obtain ⟨found, left, hitem, hlayout⟩ := Parser.bind_eq_done_iff.mp hrun
        obtain ⟨_, more, hskip, hdone⟩ := Parser.bind_eq_done_iff.mp hlayout
        cases hdone
        split at h
        · next hclose =>
          cases h
          refine .last hnext hitem ?_
          rw [← after?_eq_some_iff.mp hclose]
          exact (Outcome.done.inj hskip).2
        · cases h

/-- An item that is taken and the separator behind it stand at the start of the text. -/
theorem isSuffix_of_turn {left : List Char} {value : α} {d : Char} (hitem : item.Leaves)
    (hrun : item (skipLayout input) = .done value left) (hskip : skipLayout left = d :: rest) :
    d :: rest <:+ input := by
  have hleft := hitem (skipLayout input)
  rw [hrun] at hleft
  rw [← hskip]
  exact (skipLayout_isSuffix left).trans (hleft.trans (skipLayout_isSuffix input))

/-- The loop makes every run for which it has the fuel. -/
theorem Separated.run (h : Separated close item input values rest) (hitem : item.Leaves)
    (hcomma : close ≠ ',') (hfuel : input.length < fuel) :
    separated close item fuel input = .done values rest := by
  -- One turn of the loop reads an item and the layout behind it.
  have hturn : ∀ {input left left' : List Char} {value : α},
      item (skipLayout input) = .done value left → skipLayout left = left' →
        (do let found ← item; layout; return found : Parser α) (skipLayout input) =
          .done value left' := by
    rintro input left _ value hrun rfl
    exact Parser.bind_eq_done_iff.mpr ⟨value, left, hrun, rfl⟩
  induction h generalizing fuel with
  | nil hclose =>
    obtain ⟨fuel, rfl⟩ := Nat.exists_eq_add_one_of_ne_zero (Nat.ne_zero_of_lt hfuel)
    rw [separated]
    simp only [after?_eq_some_iff.mpr hclose]
  | last hnext hrun hclose =>
    obtain ⟨fuel, rfl⟩ := Nat.exists_eq_add_one_of_ne_zero (Nat.ne_zero_of_lt hfuel)
    rw [separated]
    simp only [hnext, hturn hrun hclose]
    split
    · next heq => cases heq
    · next heq =>
      cases heq
      exact absurd rfl hcomma
    · next heq =>
      cases heq
      simp [after?]
  | @cons input left more rest value values comma hnext hrun hcomma _ ih =>
    obtain ⟨fuel, rfl⟩ := Nat.exists_eq_add_one_of_ne_zero (Nat.ne_zero_of_lt hfuel)
    -- The turn has taken the comma at least, so that one less fuel is enough for the rest.
    have hlength := (isSuffix_of_turn hitem hrun hcomma).length_le
    rw [List.length_cons] at hlength
    rw [separated]
    simp only [hnext, hturn hrun hcomma]
    rw [ih (by omega)]
    rfl

end Lists

/-! ## Formals -/

section Formals

variable {formals : List String} {comma : Bool}

/-- A name with gaps around it and a sign behind. -/
theorem exists_of_name_turn {left : List Char} {id : String}
    (hitem : name (skipLayout input) = .done id left) (hskip : skipLayout left = c :: rest) :
    ∃ gap after, IsGap gap ∧ IsGap after ∧ IsName id ∧
      input = gap ++ id.toList ++ after ++ c :: rest := by
  obtain ⟨hname, htext, -⟩ := name_inv hitem
  obtain ⟨after, hafter, rfl, -⟩ := exists_gap_of_skipLayout hskip
  obtain ⟨d, tail, hid, -⟩ := exists_cons_of_isIdentifier hname.1
  have hcons := hid
  rw [hid] at htext
  obtain ⟨gap, hgap, rfl, -⟩ := exists_gap_of_skipLayout htext
  exact ⟨gap, after, hgap, hafter, hname, by simp [hcons]⟩

/-- A list of names that is read is such a list. -/
theorem Separated.listed {values : List String × Bool} (h : Separated close name input values rest) :
    ∃ list, Listed close (values.1.map String.toList) values.2 list ∧ input = list ++ rest ∧
      ∀ id ∈ values.1, IsName id := by
  induction h with
  | nil hclose =>
    obtain ⟨gap, hgap, rfl, -⟩ := exists_gap_of_skipLayout hclose
    exact ⟨_, .nil hgap, by simp, List.forall_mem_nil _⟩
  | last _ hitem hclose =>
    obtain ⟨gap, after, hgap, hafter, hname, rfl⟩ := exists_of_name_turn hitem hclose
    exact ⟨_, .last hgap hafter, by simp, by simpa using hname⟩
  | cons _ hitem hcomma _ ih =>
    obtain ⟨gap, after, hgap, hafter, hname, rfl⟩ := exists_of_name_turn hitem hcomma
    obtain ⟨list, hlisted, rfl, hnames⟩ := ih
    exact ⟨_, .cons hgap hafter hlisted, by simp, List.forall_mem_cons.mpr ⟨hname, hnames⟩⟩

/-- What stands between a word and an identifier behind it is not empty. -/
theorem exists_cons_of_gap {id : String} {more : List Char} (hname : IsName id) (hgap : IsGap gap)
    (hboundary : ∀ c ∈ (gap ++ (id.toList ++ more)).head?, isIdentChar c = false) :
    ∃ c tail, gap = c :: tail ∧ startsGap c = true := by
  refine hgap.eq_nil_or_cons.resolve_left ?_
  rintro rfl
  obtain ⟨c, tail, hid, -⟩ := exists_cons_of_isIdentifier hname.1
  have hc := hboundary c (by simp [hid])
  rw [forall_isIdentChar hname.1 c (by simp [hid])] at hc
  cases hc

theorem startsGap_of_listed {list : List Char}
    (h : Listed close (formals.map String.toList) comma list) (hnames : ∀ id ∈ formals, IsName id)
    (hboundary : ∀ c ∈ (list ++ rest).head?, isIdentChar c = false) (hne : formals ≠ []) :
    ∃ c tail, list = c :: tail ∧ startsGap c = true := by
  obtain ⟨id, others, rfl⟩ := List.exists_cons_of_ne_nil hne
  have hname := hnames id List.mem_cons_self
  rw [List.map_cons] at h
  generalize others.map String.toList = parts at h
  cases h with
  | last hgap _ =>
    simp only [List.append_assoc] at hboundary ⊢
    obtain ⟨c, tail, rfl, hc⟩ := exists_cons_of_gap hname hgap hboundary
    exact ⟨c, _, rfl, hc⟩
  | cons hgap _ _ =>
    simp only [List.append_assoc] at hboundary ⊢
    obtain ⟨c, tail, rfl, hc⟩ := exists_cons_of_gap hname hgap hboundary
    exact ⟨c, _, rfl, hc⟩

/-- Formals that are read start with the word, and they are read alike in front of anything. -/
theorem exists_of_formals (h : Grammar.formals input = .done formals rest) :
    ∃ gap list, IsGap gap ∧ input = gap ++ ("lambda".toList ++ (list ++ rest)) ∧
      ∀ other, Grammar.formals ("lambda".toList ++ (list ++ other)) = .done formals other := by
  obtain ⟨_, found, hlayout, hword⟩ := Parser.bind_eq_done_iff.mp h
  obtain ⟨_, left, hword, hlist⟩ := Parser.bind_eq_done_iff.mp hword
  obtain ⟨⟨_, comma⟩, hlist, rfl⟩ := map_eq_done hlist
  obtain ⟨list, hlisted, rfl, hnames⟩ := (Separated.of_run hlist).listed
  obtain ⟨htext, hboundary⟩ := afterWord?_inv (word_inv hword)
  have hskip : skipLayout input = 'l' :: ("ambda".toList ++ (list ++ rest)) :=
    (Outcome.done.inj hlayout).2.trans htext
  obtain ⟨gap, hgap, rfl, -⟩ := exists_gap_of_skipLayout hskip
  exact ⟨gap, list, hgap, rfl, fun other =>
    formals_written hnames .nil hlisted (startsGap_of_listed hlisted hnames hboundary)⟩

end Formals

end Cookbook
