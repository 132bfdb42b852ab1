import Cookbook.Proofs.Binding.Accesses

/-!
# Reads see the latest write

The context of a pass is a store: what a read gives is the value that the last capture of the key
has written, in whatever rule and however deep in an expression that was, or else the slot of the
seed. At the end of the pass the context is the seed, overwritten by the captures in their order.

## Main definitions

* `lastWrite?`: the last capture of a key among accesses.
* `Stands`: what a key stands for after accesses.

## Main results

* `History.get?_eq`: the slots after accesses.
* `reads_latest_write`: what a pass reads and what it leaves.
-/

namespace Cookbook

namespace Binding

/-- The type and the value of the last capture of a key. -/
def lastWrite? (key : String) : List Access → Option (TypeTag × Json)
  | [] => none
  | .write k _ tag value :: accesses =>
    (lastWrite? key accesses).or (if k = key then some (tag, value) else none)
  | .read .. :: accesses => lastWrite? key accesses

/-- A context overwritten by the captures among accesses, in their order. A value that is not of the
type of its capture is not written. -/
def overwrite (context : Context) : List Access → Context
  | [] => context
  | .write key _ tag value :: accesses =>
    match Slot.ofJson? tag value with
    | some slot => overwrite (context.capture key slot) accesses
    | none => overwrite context accesses
  | .read .. :: accesses => overwrite context accesses

/-- After accesses that start from a seed, a key stands for a value of a type: the value of its last
capture, or else the one in its slot of the seed. -/
def Stands (seed : Context) (accesses : List Access) (key : String) (tag : TypeTag) (value : Json) :
    Prop :=
  match lastWrite? key accesses with
  | some latest => latest = (tag, value)
  | none => ∃ slot, seed.get? key = some slot ∧ slot.tag = tag ∧ slot.toJson = value

variable {seed context last : Context} {accesses : List Access} {key : String}

/-! ## Writes -/

/-- A key has a last capture exactly if it is captured. -/
theorem lastWrite?_eq_none_iff :
    lastWrite? key accesses = none ↔
      ∀ source tag value, .write key source tag value ∉ accesses := by
  induction accesses with
  | nil => simp [lastWrite?]
  | cons access accesses ih =>
    cases access with
    | write k source tag value =>
      rw [lastWrite?, Option.or_eq_none_iff, ih]
      by_cases hk : k = key
      · subst hk
        exact iff_of_false (by simp) fun h => h source tag value List.mem_cons_self
      · have hk' : ¬ key = k := fun h => hk h.symm
        simp [hk, hk']
    | read k tag value => simp [lastWrite?, ih]

/-- Accesses lead to the context that their captures overwrite. -/
theorem History.eq_overwrite (h : History context accesses last) :
    last = overwrite context accesses := by
  induction h with
  | nil => rfl
  | write hslot _ ih =>
    rw [overwrite, hslot]
    exact ih
  | read _ _ ih => exact ih

/-! ## Slots -/

/-- The slot of a key after accesses is the one that its last capture made, or else the one that was
there before. -/
theorem History.get?_eq (h : History context accesses last) (key : String) :
    last.get? key =
      match lastWrite? key accesses with
      | some (tag, value) => Slot.ofJson? tag value
      | none => context.get? key := by
  induction h with
  | nil => rfl
  | @write k source tag value slot context last accesses hslot _ ih =>
    rw [ih, lastWrite?]
    cases lastWrite? key accesses with
    | some latest => rfl
    | none =>
      -- No later capture of the key, so it is this one that counts if it is one of the key.
      by_cases hk : k = key
      · subst hk
        simp [Context.capture, hslot]
      · have hk' : key ≠ k := fun h => hk h.symm
        simp [Context.capture, OrderedMap.get?_insert_of_ne _ hk', hk]
  | read _ _ ih => exact ih

/-- A key has a slot after accesses exactly if it stands for the value of that slot. -/
theorem History.get?_eq_some_iff (h : History seed accesses last) {slot : Slot} :
    last.get? key = some slot ↔ Stands seed accesses key slot.tag slot.toJson := by
  have hget := h.get?_eq key
  unfold Stands
  -- Without a write the slot is that of the seed. After one it is made of the value that was
  -- written last, and a slot is known by its tag and its value.
  cases hlast : lastWrite? key accesses with
  | none =>
    rw [hlast] at hget
    rw [hget]
    constructor
    · intro hslot
      exact ⟨slot, hslot, rfl, rfl⟩
    · rintro ⟨found, hfound, htag, hvalue⟩
      rw [hfound, ← Slot.ofJson?_toJson found, htag, hvalue, Slot.ofJson?_toJson]
  | some latest =>
    obtain ⟨tag, value⟩ := latest
    rw [hlast] at hget
    constructor
    · intro hslot
      have hmade : Slot.ofJson? tag value = some slot := hget.symm.trans hslot
      rw [Slot.tag_of_ofJson? hmade, Slot.toJson_of_ofJson? hmade]
    · intro heq
      obtain ⟨rfl, rfl⟩ := Prod.mk.inj heq
      exact hget.trans (Slot.ofJson?_toJson slot)

/-- A read finds what its key stands for. -/
theorem History.stands (h : History seed accesses last) {before after : List Access}
    {tag : TypeTag} {value : Json} (hread : accesses = before ++ .read key tag value :: after) :
    Stands seed before key tag value := by
  subst hread
  obtain ⟨middle, hbefore, hafter⟩ := h.split
  cases hafter with
  | read hslot _ => exact hbefore.get?_eq_some_iff.mp hslot

end Binding

open Binding

/-! ## Passes -/

/-- In a pass that succeeds, each read gives the value of the last capture of its key before it, at
the type of that capture, or else the slot of the seed. The pass leaves the seed overwritten by its
captures, so that a key stands for the value of its last capture, and a key that is never captured
keeps its slot. -/
theorem reads_latest_write (recipe : Recipe) (ancestry : Ancestry) (seed : Context)
    (binding : Binding) (h : recipe.bind ancestry seed = .ok binding) :
    ∃ accesses, recipe.record ancestry seed = ⟨accesses, .ok binding⟩ ∧
      (∀ before key tag value after, accesses = before ++ .read key tag value :: after →
        Stands seed before key tag value) ∧
      binding.context = overwrite seed accesses ∧
      (∀ key slot, binding.context.get? key = some slot ↔
        Stands seed accesses key slot.tag slot.toJson) ∧
      ∀ key, (∀ source tag value, .write key source tag value ∉ accesses) →
        binding.context.get? key = seed.get? key := by
  -- The record of the pass is a history of it, and each part is a law of histories.
  have hhistory := Recipe.history_record h
  refine ⟨_, Recorded.eq_of_outcome ((recipe.outcome_record ancestry seed).trans h), ?_,
    hhistory.eq_overwrite, ?_, ?_⟩
  · intro before key tag value after hread
    exact hhistory.stands hread
  · intro key slot
    exact hhistory.get?_eq_some_iff
  · intro key hkey
    rw [hhistory.get?_eq, lastWrite?_eq_none_iff.mpr hkey]

/-- A recipe that counts rows, and counts on in a branch. -/
def tally : Recipe where
  constraint := "Tally"
  entrypoint := "main"
  dialect := .shell
  preamble := ""
  body := "wc"
  rules :=
    [⟨"rows", ["table", "context"],
        .format "\x7b\x7d of \x7b\x7d"
          [⟨none, .capture "rows" (.field "table" ["rows"]) .int⟩, ⟨none, .get "rows" .int⟩]⟩,
      ⟨"more", ["context"],
        .conditional (.get "rows" .int) (.capture "rows" (.literal (.int 9)) .int)
          (.capture "rows" (.literal (.int 1)) .int)⟩,
      ⟨"last", ["context"], .capture "last" (.get "rows" .int) .int⟩,
      ⟨"dir", ["context"], .get "dir" .string⟩]
  requirements := []
  source := "tally.sh"

/-- A table with three rows. -/
def tables : Ancestry := .ofList [("table", .obj [("rows", .int 3)])]

/-- What earlier passes have left: a number of rows, which is overwritten, and a folder. -/
def shelf : Context := .ofList [("rows", .int 2), ("dir", .string "in")]

/-- What its pass does with the context. -/
def tallyAccesses : List Access :=
  [.write "rows" (.field "table" ["rows"]) .int (.int 3), .read "rows" .int (.int 3),
    .read "rows" .int (.int 3), .write "rows" (.literal (.int 9)) .int (.int 9),
    .read "rows" .int (.int 9), .write "last" (.get "rows" .int) .int (.int 9),
    .read "dir" .string (.str "in")]

/-- What its pass ends with. -/
def tallied : Binding where
  arguments := .ofList
    [("rows", .str "3 of 3"), ("more", .int 9), ("last", .int 9), ("dir", .str "in")]
  context := .ofList [("rows", .int 9), ("dir", .string "in"), ("last", .int 9)]

theorem reads_latest_tally :
    tally.bind tables shelf = .ok tallied ∧
    (tally.record tables shelf).accesses = tallyAccesses ∧
    -- The read in the third rule sees the capture in the branch of the second.
    Stands shelf (tallyAccesses.take 4) "rows" .int (.int 9) ∧
    -- The read in the fourth rule sees the seed.
    Stands shelf (tallyAccesses.take 6) "dir" .string (.str "in") := by
  have hbind : tally.bind tables shelf = .ok tallied := rfl
  obtain ⟨accesses, hrecord, hreads, -⟩ := reads_latest_write tally tables shelf tallied hbind
  obtain rfl : tallyAccesses = accesses := congrArg Recorded.accesses hrecord
  exact ⟨hbind, rfl, hreads _ _ _ _ _ rfl, hreads _ _ _ _ _ rfl⟩

end Cookbook
