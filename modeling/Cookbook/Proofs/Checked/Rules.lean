import Cookbook.Proofs.Checked.Items
import Cookbook.Registration.Rules

/-!
# Checked rules

The text of a rule knows where it stands in its map, and the map knows where it stands in the header,
so that a line is counted from the sum of three offsets. `lineOf?` counts the line of an offset into
the text at hand; it has no result where the text cannot be cut.

## Main results

* `compileRule_eq`, `compileRules_eq`: all cuts of the compiler of rules are sound, and so are those
  for the lines of its errors.
-/

namespace Cookbook.Checked

open Cookbook.Text

variable {text : List Char} {parameter : String} {lineOf? : Nat → Option Nat} {lineOf : Nat → Nat}

/-! ## One rule -/

/-- The rule that a text gives for a parameter. -/
def compileRule (parameter : String) (text : List Char) (lineOf? : Nat → Option Nat) :
    Option (Except Error Rule) := do
  let trimmed := trimStart text
  let start ← offsetOf text trimmed
  if "lambda".toList.isPrefixOf trimmed then
    let outcome := Grammar.lambda text
    let unread := skipLayout outcome.rest
    let offset ← offsetOf text unread
    match outcome, unread with
    | .done (formals, term) _, [] =>
      let line ← lineOf? start
      match Rule.lower formals term with
      | .ok expression => return .ok ⟨parameter, formals, expression⟩
      | .error construct => return .error (.unsupported parameter construct line)
    | _, unread =>
      return .error (.unsupported parameter (.ofUnread unread) (← lineOf? offset))
  else return .error (.unsupported parameter (.notLambda (String.ofList trimmed)) (← lineOf? start))

theorem compileRule_eq (h : LinesOf text lineOf? lineOf) :
    compileRule parameter text lineOf? = some (Rule.compile parameter text lineOf) := by
  have htrim : trimStart text <:+ text := List.dropWhile_suffix isBlank
  have hunread := (Grammar.skipLayout_isSuffix _).trans (Grammar.leaves_lambda text)
  obtain ⟨hstart, hstartBoundary⟩ := offsetOf_of_suffix htrim
  rw [compileRule, Rule.compile, hstart]
  simp only [Option.bind_eq_bind, Option.bind_some, h _ hstartBoundary]
  generalize Grammar.lambda text = outcome at hunread ⊢
  generalize skipLayout outcome.rest = unread at hunread ⊢
  obtain ⟨hoffset, hboundary⟩ := offsetOf_of_suffix hunread
  simp only [hoffset, Option.bind_some, h _ hboundary]
  -- All offsets are known to be sound now; what is left is the same choice on both sides.
  split
  · rcases outcome with ⟨⟨formals, term⟩, rest⟩ | rest
    · cases unread with
      | nil =>
        dsimp only
        cases Rule.lower formals term <;> rfl
      | cons c unread => rfl
    · rfl
  · rfl

/-! ## The rules of a map -/

/-- The rules of entries that stand in a map at byte offset `base`, in order; `earlier` lists the
parameters that have a rule already. -/
def rulesOfEntries (lineOf? : Nat → Option Nat) (base : Nat) (earlier : List String) :
    List Entry → Option (Except Error (List Rule))
  | [] => some (.ok [])
  | entry :: entries =>
    if entry.key ∈ earlier then do
      return .error (.malformed (← lineOf? (base + entry.keyOffset)) (.duplicateArgument entry.key))
    else
      let start := base + entry.value.offset
      chain (compileRule entry.key entry.value.text fun offset => lineOf? (start + offset)) fun rule =>
        chain (rulesOfEntries lineOf? base (entry.key :: earlier) entries) fun rules =>
          some (.ok (rule :: rules))

/-- The rules of an argument map, in order of declaration. -/
def compileRules (lineOf? : Nat → Option Nat) (map : Segment) :
    Option (Except Error (List Rule)) := do
  match ← splitEntries map.text with
  | .error (offset, expected) =>
    return .error (.malformed (← lineOf? (map.offset + offset))
      (.malformedMap expected (String.ofList map.text)))
  | .ok entries => rulesOfEntries lineOf? map.offset [] entries

theorem rulesOfEntries_eq {base : Nat} {entries : List Entry}
    (h : LinesOf text (fun offset => lineOf? (base + offset)) fun offset => lineOf (base + offset))
    (hentries : ∀ entry ∈ entries, entry.StandsIn text) (earlier : List String) :
    rulesOfEntries lineOf? base earlier entries =
      some (Cookbook.rulesOfEntries lineOf base earlier entries) := by
  induction entries generalizing earlier with
  | nil => rfl
  | cons entry entries ih =>
    rw [List.forall_mem_cons] at hentries
    obtain ⟨⟨hkey, front, back, htext, hoffset⟩, hentries⟩ := hentries
    rw [rulesOfEntries, Cookbook.rulesOfEntries]
    split
    · have hline : lineOf? (base + entry.keyOffset) = some (lineOf (base + entry.keyOffset)) :=
        h _ hkey
      rw [hline]
      rfl
    · -- The lines of the rule are counted from where its text stands in the map.
      rw [htext] at h
      have hrule := h.within
      simp only [← hoffset, ← Nat.add_assoc] at hrule
      exact chain_eq (compileRule_eq hrule) fun rule _ =>
        chain_eq (ih hentries _) fun rules _ => rfl

/-- All cuts of the compiler of rules are sound. -/
theorem compileRules_eq {header : List Char} {map : Segment} (h : LinesOf header lineOf? lineOf)
    (hmap : map.StandsIn header) :
    compileRules lineOf? map = some (Cookbook.compileRules lineOf map) := by
  obtain ⟨front, back, htext, hoffset⟩ := hmap
  rw [htext] at h
  have hlines := h.within
  simp only [← hoffset] at hlines
  obtain ⟨heq, hlocated⟩ := splitEntries_eq map.text
  rw [compileRules, Cookbook.compileRules, heq]
  cases hsplit : Cookbook.splitEntries map.text with
  | error fault =>
    rw [hsplit] at hlocated
    simp [hlines _ hlocated]
  | ok entries =>
    rw [hsplit] at hlocated
    exact rulesOfEntries_eq hlines hlocated []

end Cookbook.Checked
