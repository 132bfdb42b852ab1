import Cookbook.Proofs.Checked.Calls
import Cookbook.Proofs.Except

/-!
# Checked registrations

What a call declares is read from its arguments, which stand in the header. Lists in square brackets
are split by the reader of arguments; a malformation and a label without a meaning are reported with
their lines.

## Main results

* `find_eq`: all cuts of the reader of registrations are sound, and its map and its end stand in the
  header.
* `parse_eq`: so are the cuts for the line of a malformation.
-/

namespace Cookbook

open Cookbook.Text

variable {header inner text : List Char} {lineOf? : Nat → Option Nat} {lineOf : Nat → Nat}

/-- The map that has been set stands in the header. -/
def Settings.StandsIn (settings : Settings) (header : List Char) : Prop :=
  ∀ map ∈ settings.args, map.StandsIn header

/-- The map and the end of the call stand in the header. -/
def Registration.StandsIn (registration : Registration) (header : List Char) : Prop :=
  registration.settings.StandsIn header ∧ IsBoundary header registration.stop

namespace Checked

/-! ## Lists -/

/-- The items of a list of unlabelled values, each read by `item`. -/
def listItems? {α : Type} (item : List Char → Option α) (inner : List Char) :
    Option (Option (List α)) := do
  match ← splitArguments inner with
  | .error _ => return none
  | .ok found => return found.mapM fun a => if a.isPositional then item a.value.text else none

/-- One name, or a list of at least one in square brackets. -/
def constraintNames? (text : List Char) : Option (Option (List String)) :=
  match bracketed? text with
  | some inner => do
    match ← listItems? constraintName? inner with
    | some (name :: names) => return some (name :: names)
    | _ => return none
  | none => some ((constraintName? text).map fun name => [name])

/-- Literals in square brackets. -/
def literalList? (text : List Char) : Option (Option (List String)) :=
  match bracketed? text with
  | some inner => listItems? (fun item => (literalValue? item).map String.ofList) inner
  | none => some none

theorem listItems?_eq {α : Type} (item : List Char → Option α) (inner : List Char) :
    listItems? item inner = some (Cookbook.listItems? item inner) := by
  rw [listItems?, Cookbook.listItems?, splitArguments_eq]
  cases Cookbook.splitArguments inner <;> rfl

theorem constraintNames?_eq (text : List Char) :
    constraintNames? text = some (Cookbook.constraintNames? text) := by
  rw [constraintNames?, Cookbook.constraintNames?]
  cases bracketed? text with
  | none => rfl
  | some inner =>
    simp only [listItems?_eq, Option.bind_eq_bind, Option.bind_some]
    rcases Cookbook.listItems? constraintName? inner with _ | ⟨_ | ⟨name, names⟩⟩ <;> rfl

theorem literalList?_eq (text : List Char) :
    literalList? text = some (Cookbook.literalList? text) := by
  rw [literalList?, Cookbook.literalList?]
  cases bracketed? text with
  | none => rfl
  | some inner => exact listItems?_eq _ inner

/-! ## Labelled arguments -/

/-- Sets what a label names. -/
def set (lineOf? : Nat → Option Nat) (settings : Settings) (label : String) (value : Segment) :
    Option (Except Malformation Settings) :=
  match label with
  | "args" | "entrypoint" | "preamble" => some (settings.set label value)
  | "pip_requirements" | "requirements" => do
    match ← literalList? value.text with
    | some texts => return .ok { settings with requirements := texts }
    | none => return .error (.requirementsNotTexts label)
  | _ => do
    -- A label without a meaning is logged with its line.
    let _ ← lineOf? value.offset
    return .ok settings

/-- Reads labelled arguments in order; `seen` lists the labels that have been used. -/
def read (lineOf? : Nat → Option Nat) (seen : List String) (settings : Settings) :
    List (Argument Segment) → Option (Except (Nat × Malformation) Settings)
  | [] => some (.ok settings)
  | ⟨none, _⟩ :: rest => read lineOf? seen settings rest
  | ⟨some label, value⟩ :: rest =>
    if label ∈ seen then some (.error (value.offset, .duplicateArgument label))
    else do
      match ← set lineOf? settings label value with
      | .ok settings => read lineOf? (label :: seen) settings rest
      | .error what => return .error (value.offset, what)

theorem set_eq {value : Segment} (h : LinesOf header lineOf? lineOf) (hvalue : value.StandsIn header)
    (settings : Settings) (label : String) :
    set lineOf? settings label value = some (settings.set label value) := by
  have hline := h _ hvalue.boundary
  unfold set
  split
  · rfl
  · rfl
  · rfl
  · rw [literalList?_eq]
    simp only [Settings.set]
    cases Cookbook.literalList? value.text <;> rfl
  · rw [literalList?_eq]
    simp only [Settings.set]
    cases Cookbook.literalList? value.text <;> rfl
  · simp [hline, Settings.set]

theorem standsIn_of_set {settings after : Settings} {label : String} {value : Segment}
    (h : settings.set label value = .ok after) (hsettings : settings.StandsIn header)
    (hvalue : value.StandsIn header) : after.StandsIn header := by
  unfold Settings.set at h
  split at h
  -- The argument map is the value itself; everything else that is set leaves the map alone.
  · cases h
    intro map hmap
    cases hmap
    exact hvalue
  all_goals try split at h
  all_goals cases h
  all_goals exact hsettings

theorem read_eq {found : List (Argument Segment)} {settings : Settings}
    (h : LinesOf header lineOf? lineOf) (hfound : ∀ a ∈ found, a.value.StandsIn header)
    (hsettings : settings.StandsIn header) (seen : List String) :
    read lineOf? seen settings found = some (settings.read seen found) ∧
      Located header (Settings.StandsIn · header) (settings.read seen found) := by
  fun_induction Settings.read seen settings found
  case case1 => exact ⟨rfl, hsettings⟩
  case case2 ih => exact ih (List.forall_mem_cons.mp hfound).2 hsettings
  case case3 value hseen =>
    rw [List.forall_mem_cons] at hfound
    rw [read, if_pos hseen]
    exact ⟨rfl, hfound.1.boundary⟩
  case case4 value hseen settings hset ih =>
    rw [List.forall_mem_cons] at hfound
    rw [read, if_neg hseen, set_eq h hfound.1, hset]
    exact ih hfound.2 (standsIn_of_set hset hsettings hfound.1)
  case case5 value hseen what hset =>
    rw [List.forall_mem_cons] at hfound
    rw [read, if_neg hseen, set_eq h hfound.1, hset]
    exact ⟨rfl, hfound.1.boundary⟩

/-! ## Registrations -/

/-- What the first call of a header declares, or where and how the header is malformed. -/
def find (lineOf? : Nat → Option Nat) (header : List Char) :
    Option (Except (Nat × Malformation) Registration) :=
  chain (findCall header) fun call =>
    chain (arguments call header) fun arguments =>
      chain (read lineOf? [] Settings.none arguments) fun settings =>
        match Argument.positionals arguments with
        | _ :: target :: _ => do
          match ← constraintNames? target.text with
          | some constraints =>
            return .ok ⟨call.name, constraints, settings, call.start, call.closeAt + 1⟩
          | none => return .error (target.offset, .notConstraints (String.ofList target.text))
        | positionals => some (.error (call.start, .tooFewArguments positionals.length))

/-- What the first call of a header declares. -/
def parse (lineOf? : Nat → Option Nat) (header : List Char) :
    Option (Except Error Registration) := do
  match ← find lineOf? header with
  | .ok registration => return .ok registration
  | .error (offset, what) => return .error (.malformed (← lineOf? offset) what)

theorem mem_positionals {found : List (Argument Segment)} {value : Segment}
    (h : value ∈ Argument.positionals found) : ∃ a ∈ found, a.value = value := by
  obtain ⟨a, ha, hvalue⟩ := List.mem_filterMap.mp h
  split at hvalue
  · exact ⟨a, ha, Option.some.inj hvalue⟩
  · cases hvalue

/-- The end of a call is a boundary, as a closing bracket is one byte long. -/
theorem boundary_stop {call : Call} (h : call.StandsIn header) :
    IsBoundary header (call.closeAt + 1) := by
  obtain ⟨-, before, inner, c, after, rfl, hclosing, hopen, hclose⟩ := h
  refine ⟨before ++ '(' :: inner ++ [c], after, by simp, ?_⟩
  have hsize : c.utf8Size = 1 := by
    rcases eq_of_isClosing hclosing with rfl | rfl | rfl <;> rfl
  rw [hclose, hopen, byteSize_append, byteSize_append, byteSize_cons, byteSize_cons, hsize,
    byteSize_nil]
  show byteSize before + (1 + byteSize inner) + 1 = byteSize before + 1 + byteSize inner + 1
  omega

theorem find_eq (h : LinesOf header lineOf? lineOf) :
    find lineOf? header = some (Registration.find header) ∧
      Located header (Registration.StandsIn · header) (Registration.find header) := by
  -- Each stage says where its result stands, which is what the next one has to know.
  refine chain_located (findCall_eq header) (fun _ he => he) fun call hcall => ?_
  refine chain_located (arguments_eq hcall) (fun _ he => he) fun found hfound => ?_
  refine chain_located (read_eq h hfound (fun _ hmap => by cases hmap) []) (fun _ he => he)
    fun settings hsettings => ?_
  rcases hpositionals : Argument.positionals found with _ | ⟨handle, _ | ⟨target, others⟩⟩
  · exact ⟨rfl, hcall.1⟩
  · exact ⟨rfl, hcall.1⟩
  · obtain ⟨a, ha, rfl⟩ := @mem_positionals found target (by simp [hpositionals])
    simp only [constraintNames?_eq, Option.bind_eq_bind, Option.bind_some]
    cases Cookbook.constraintNames? a.value.text with
    | none => exact ⟨rfl, (hfound a ha).boundary⟩
    | some constraints => exact ⟨rfl, hsettings, boundary_stop hcall⟩

/-- The registration is read as it is, and the line of a malformation is counted soundly. -/
theorem parse_eq (h : LinesOf header lineOf? lineOf) :
    parse lineOf? header = some (Registration.parse lineOf header) ∧
      ∀ registration, Registration.parse lineOf header = .ok registration →
        registration.StandsIn header := by
  obtain ⟨hfind, hlocated⟩ := find_eq h
  rw [parse, hfind]
  unfold Registration.parse
  cases hparse : Registration.find header with
  | ok registration =>
    rw [hparse] at hlocated
    refine ⟨rfl, fun _ heq => ?_⟩
    cases heq
    exact hlocated
  | error fault =>
    rw [hparse] at hlocated
    simp [h _ hlocated]

end Checked

end Cookbook
