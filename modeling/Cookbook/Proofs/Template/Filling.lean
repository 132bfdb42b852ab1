import Cookbook.Binding
import Cookbook.Lint.WellFormed
import Cookbook.Rule.Lower

/-!
# Filling the placeholders of a template

Three functions look at the placeholders of a template: the compiler of rules names the first one
that no argument fills, the check of a registry counts them, and rendering fills them. `Filled` says
what all three are about.

## Main results

* `firstNeed_eq_none_iff`, `fills_eq_true_iff`, `exists_fill_iff`: the three agree with `Filled`.
* `pieces_append_escape`, `pieces_append_field`: escaped text and placeholders are read back whatever
  stands after them.
-/

namespace Cookbook.Template

open Cookbook.Text

/-! ## What it means to fill the placeholders -/

/-- A placeholder that names its argument, by index or by name, names one that there is. -/
def Met (labels : List (Option String)) : Piece → Prop
  | .hole (.index i) => i < labels.count none
  | .hole (.named n) => some n ∈ labels
  | .hole .next | .text _ => True

/-- Arguments with the given labels fill the placeholders of pieces, `next` positional ones being
used up by empty placeholders before them. -/
structure Filled (labels : List (Option String)) (next : Nat) (pieces : List Piece) : Prop where
  /-- There are as many positional arguments as empty placeholders. -/
  next_le : next + pieces.count (.hole .next) ≤ labels.count none
  met : ∀ p ∈ pieces, Met labels p

variable {labels : List (Option String)} {next : Nat} {ps : List Piece}

theorem filled_nil_iff : Filled labels next [] ↔ next ≤ labels.count none := by
  constructor
  · intro h
    exact h.next_le
  · intro h
    exact ⟨h, fun _ hp => nomatch hp⟩

theorem filled_cons_iff (p : Piece) :
    Filled labels next (p :: ps) ↔
      Met labels p ∧ Filled labels (if p = .hole .next then next + 1 else next) ps := by
  have hcount : next + (p :: ps).count (.hole .next) =
      (if p = .hole .next then next + 1 else next) + ps.count (.hole .next) := by
    simp only [List.count_cons, beq_iff_eq]
    split <;> omega
  constructor
  · rintro ⟨hnext, hmet⟩
    rw [List.forall_mem_cons] at hmet
    exact ⟨hmet.1, hcount ▸ hnext, hmet.2⟩
  · rintro ⟨hp, hnext, hmet⟩
    exact ⟨hcount ▸ hnext, List.forall_mem_cons.mpr ⟨hp, hmet⟩⟩

theorem filled_text_iff (s : String) :
    Filled labels next (.text s :: ps) ↔ Filled labels next ps := by
  simp [filled_cons_iff, Met]

theorem filled_next_iff :
    Filled labels next (.hole .next :: ps) ↔ Filled labels (next + 1) ps := by
  simp [filled_cons_iff, Met]

theorem filled_index_iff (i : Nat) :
    Filled labels next (.hole (.index i) :: ps) ↔
      i < labels.count none ∧ Filled labels next ps := by
  simp [filled_cons_iff, Met]

theorem filled_named_iff (n : String) :
    Filled labels next (.hole (.named n) :: ps) ↔ some n ∈ labels ∧ Filled labels next ps := by
  simp [filled_cons_iff, Met]

/-- Pieces that are filled use up no more positional arguments than there are. -/
theorem Filled.le_count (h : Filled labels next ps) : next ≤ labels.count none :=
  Nat.le_trans (Nat.le_add_right next _) h.next_le

/-! ## The three checks -/

/-- The compiler finds no need exactly if the placeholders are filled. -/
theorem firstNeed_eq_none_iff (hnext : next ≤ labels.count none) :
    Rule.firstNeed (labels.count none) (labels.filterMap id) next ps = none ↔
      Filled labels next ps := by
  induction ps generalizing next with
  | nil => simpa [Rule.firstNeed] using filled_nil_iff.mpr hnext
  | cons p ps ih =>
    match p with
    | .text s => rw [Rule.firstNeed, filled_text_iff, ih hnext]
    | .hole .next =>
      rw [Rule.firstNeed, filled_next_iff]
      split
      · next hlt =>
        -- The empty placeholder is one too many, so the pieces after it do not matter.
        refine iff_of_false (by simp) ?_
        intro h
        have hle := h.le_count
        omega
      · next hle => exact ih (by omega)
    | .hole (.index i) =>
      rw [Rule.firstNeed, filled_index_iff]
      split
      · next hle => exact iff_of_false (by simp) fun h => absurd h.1 (by omega)
      · next hlt => rw [ih hnext, and_iff_right (by omega : i < labels.count none)]
    | .hole (.named n) =>
      have hmem : n ∈ labels.filterMap id ↔ some n ∈ labels := by simp
      rw [Rule.firstNeed, filled_named_iff]
      split
      · next hn => rw [ih hnext, and_iff_right (hmem.mp hn)]
      · next hn => exact iff_of_false (by simp) fun h => hn (hmem.mpr h.1)

/-- The check of a registry passes exactly if the placeholders are filled. -/
theorem fills_eq_true_iff : Lint.fills labels ps = true ↔ Filled labels 0 ps := by
  unfold Lint.fills
  rw [Bool.and_eq_true, List.all_eq_true, decide_eq_true_eq]
  have hmet (p : Piece) : (match p with
      | .hole (.index i) => decide (i < labels.count none)
      | .hole (.named n) => labels.contains (some n)
      | .hole .next | .text _ => true) = true ↔ Met labels p := by
    match p with
    | .text s => simp [Met]
    | .hole .next => simp [Met]
    | .hole (.index i) => simp [Met]
    | .hole (.named n) => simp [Met]
  constructor
  · rintro ⟨hnext, hall⟩
    exact ⟨by omega, fun p hp => (hmet p).mp (hall p hp)⟩
  · intro h
    exact ⟨by have := h.next_le; omega, fun p hp => (hmet p).mpr (h.met p hp)⟩

/-! ### Rendering -/

/-- The positional arguments are those without a label. -/
theorem length_positionals {α : Type} (arguments : List (Argument α)) :
    (Argument.positionals arguments).length = (arguments.map (·.label)).count none := by
  induction arguments with
  | nil => rfl
  | cons a arguments ih =>
    obtain ⟨label, value⟩ := a
    cases label with
    | none => simpa [Argument.positionals, Argument.isPositional] using ih
    | some l => simpa [Argument.positionals, Argument.isPositional] using ih

/-- There is a value under a label exactly if an argument has that label. -/
theorem isSome_labelled? {α : Type} (name : String) (arguments : List (Argument α)) :
    (Argument.labelled? name arguments).isSome = true ↔
      some name ∈ arguments.map (·.label) := by
  simp only [Argument.labelled?, List.findSome?_isSome_iff, List.mem_map]
  constructor
  · rintro ⟨a, ha, hsome⟩
    split at hsome
    · next hlabel => exact ⟨a, ha, hlabel⟩
    · cases hsome
  · rintro ⟨a, ha, hlabel⟩
    exact ⟨a, ha, by simp [hlabel]⟩

/-- A placeholder finds its value exactly if it is met; an empty one, if enough positional
arguments are left. -/
theorem isSome_filling? (values : List (Argument Json)) (next : Nat) (hole : Placeholder) :
    (Binding.filling? values next hole).isSome = true ↔
      Met (values.map (·.label)) (.hole hole) ∧
        (hole = .next → next < (values.map (·.label)).count none) := by
  cases hole with
  | next => simp [Binding.filling?, Met, length_positionals]
  | index i => simp [Binding.filling?, Met, length_positionals]
  | named n =>
    rw [Binding.filling?, Argument.lastLabelled?, isSome_labelled?]
    simp [Met]

/-- Rendering succeeds exactly if the placeholders are filled. -/
theorem exists_fill_iff (values : List (Argument Json))
    (hnext : next ≤ (values.map (·.label)).count none) :
    (∃ text, Binding.fill values next ps = .ok text) ↔ Filled (values.map (·.label)) next ps := by
  induction ps generalizing next with
  | nil => exact iff_of_true ⟨[], rfl⟩ (filled_nil_iff.mpr hnext)
  | cons p ps ih =>
    match p with
    | .text s =>
      rw [filled_text_iff, ← ih hnext, Binding.fill]
      cases Binding.fill values next ps with
      | ok text => simp
      | error hole => simp
    | .hole hole =>
      have hsome := isSome_filling? values next hole
      rw [filled_cons_iff, Binding.fill]
      cases hfilling : Binding.filling? values next hole with
      | none =>
        rw [hfilling] at hsome
        refine iff_of_false (by simp) ?_
        intro ⟨hmet, hfilled⟩
        -- What is filled leaves a positional argument for an empty placeholder.
        have hlt (hhole : hole = .next) : next < (values.map (·.label)).count none := by
          have hle := hfilled.le_count
          simp only [hhole, if_true] at hle
          omega
        exact absurd (hsome.mpr ⟨hmet, hlt⟩) (by simp)
      | some value =>
        rw [hfilling] at hsome
        obtain ⟨hmet, hlt⟩ := hsome.mp rfl
        have hle : (if hole = .next then next + 1 else next) ≤
            (values.map (·.label)).count none := by
          split
          · next hhole => exact hlt hhole
          · exact hnext
        simp only [Piece.hole.injEq]
        rw [and_iff_right hmet, ← ih hle]
        cases Binding.fill values (if hole = .next then next + 1 else next) ps with
        | ok text => simp
        | error hole => simp

/-! ## Escaped text

Template text that stands for a plain text, and a placeholder, are read back as what they stand for,
whatever template follows them. -/

/-- Puts a text in front of pieces, into their first text if they start with one. -/
def consText (text : List Char) (ps : List Piece) : List Piece :=
  text.foldr consChar ps

theorem filled_consChar_iff (c : Char) :
    Filled labels next (consChar c ps) ↔ Filled labels next ps := by
  unfold consChar
  split
  · rw [filled_text_iff, filled_text_iff]
  · rw [filled_text_iff]

theorem filled_consText_iff (text : List Char) :
    Filled labels next (consText text ps) ↔ Filled labels next ps := by
  induction text with
  | nil => exact Iff.rfl
  | cons c text ih => exact (filled_consChar_iff c).trans ih

theorem fill_consChar (values : List (Argument Json)) (c : Char) :
    Binding.fill values next (consChar c ps) = (c :: ·) <$> Binding.fill values next ps := by
  unfold consChar
  split
  · next s qs =>
    simp only [Binding.fill, String.toList_append, String.toList_singleton]
    cases Binding.fill values next qs with
    | ok text => rfl
    | error hole => rfl
  · simp only [Binding.fill, String.toList_singleton]
    cases Binding.fill values next ps with
    | ok text => rfl
    | error hole => rfl

/-- Text in front of pieces is rendered as it is. -/
theorem fill_consText (values : List (Argument Json)) (text : List Char) :
    Binding.fill values next (consText text ps) = (text ++ ·) <$> Binding.fill values next ps := by
  induction text with
  | nil => exact (id_map _).symm
  | cons c text ih =>
    show Binding.fill values next (consChar c (consText text ps)) = _
    rw [fill_consChar, ih]
    cases Binding.fill values next ps with
    | ok text => rfl
    | error hole => rfl

theorem pieces_append_escapeChar (c : Char) (rest : List Char) :
    pieces none (escapeChar c ++ rest) = consChar c <$> pieces none rest := by
  unfold escapeChar
  split
  · next hc =>
    -- A doubled brace is read as one brace of text.
    rcases hc with rfl | rfl <;> simp [pieces]
  · next hc =>
    obtain ⟨hopen, hclose⟩ := not_or.mp hc
    simp [pieces, hopen, hclose]

theorem pieces_append_escape (text rest : List Char) :
    pieces none (text.flatMap escapeChar ++ rest) = consText text <$> pieces none rest := by
  induction text with
  | nil => exact (id_map _).symm
  | cons c text ih =>
    rw [List.flatMap_cons, List.append_assoc, pieces_append_escapeChar, ih]
    cases pieces none rest with
    | ok ps => rfl
    | error fault => rfl

theorem pieces_some_append {field : List Char} (h : '}' ∉ field) (before rest : List Char) :
    pieces (some before) (field ++ '}' :: rest) =
      placeholder (before.reverse ++ field) >>= fun hole =>
        (.hole hole :: ·) <$> pieces none rest := by
  induction field generalizing before with
  | nil =>
    rw [List.nil_append, pieces, List.append_nil]
    simp only [if_true]
    cases placeholder before.reverse with
    | error fault => rfl
    | ok hole => cases pieces none rest <;> rfl
  | cons c field ih =>
    rw [List.mem_cons, not_or] at h
    rw [List.cons_append, pieces]
    simp only [Ne.symm h.1, if_false]
    rw [ih h.2, List.reverse_cons, List.append_assoc, List.singleton_append]

/-- A field in braces is read as a placeholder. -/
theorem pieces_append_field {field : List Char} (hopen : field.head? ≠ some '{')
    (hclose : '}' ∉ field) (rest : List Char) :
    pieces none ('{' :: (field ++ '}' :: rest)) =
      placeholder field >>= fun hole => (.hole hole :: ·) <$> pieces none rest := by
  -- The brace opens a placeholder, because no second one follows it.
  have hstart : pieces none ('{' :: (field ++ '}' :: rest)) =
      pieces (some []) (field ++ '}' :: rest) := by
    rw [pieces.eq_def]
    cases field with
    | nil => simp
    | cons c field =>
      have hc : c ≠ '{' := by simpa using hopen
      simp [hc]
  rw [hstart, pieces_some_append hclose, List.reverse_nil, List.nil_append]

theorem pieces_append_hole (rest : List Char) :
    pieces none ('{' :: '}' :: rest) = (.hole .next :: ·) <$> pieces none rest :=
  @pieces_append_field [] (by simp) (by simp) rest

end Cookbook.Template
