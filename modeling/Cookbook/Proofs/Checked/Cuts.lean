import Cookbook.Text.Search
import Cookbook.Text.Bytes

/-!
# Checked cuts

The cuts of a text at byte offsets are total functions here, and where an offset falls inside a
character they round it down. A program that works on the bytes themselves has no such choice: a cut
out of range, in the wrong order or inside a character stops it, and so does a difference of offsets
that would be negative. The operations of this module have no result in these cases, so that a
computation that is built from them has a result only if all its cuts are sound.

## Main definitions

* `Checked.minus`, `Checked.offsetOf`: differences of offsets.
* `Checked.cutFrom`, `Checked.cutTo`, `Checked.cut`: parts of a text.
* `Checked.chain`: one computation after another, each of which may end with an error.
* `Checked.LinesOf`: what has to be known of a line count that cuts its text.
-/

namespace Cookbook

open Cookbook.Text

variable {text front back rest : List Char} {offset : Nat}

/-! ## Boundaries -/

theorem Text.isBoundary_iff : IsBoundary text offset ↔ byteSize (takeBytes offset text) = offset :=
  ⟨fun h => (take_append_drop_of_boundary h).2,
    fun h => ⟨takeBytes offset text, dropBytes offset text,
      (takeBytes_append_dropBytes offset text).symm, h⟩⟩

instance (text : List Char) (offset : Nat) : Decidable (IsBoundary text offset) :=
  decidable_of_iff _ isBoundary_iff.symm

theorem Text.isBoundary_append (front back : List Char) :
    IsBoundary (front ++ back) (byteSize front) :=
  ⟨front, back, rfl, rfl⟩

theorem Text.isBoundary_zero (text : List Char) : IsBoundary text 0 :=
  ⟨[], text, rfl, rfl⟩

/-- A boundary of a part is one of the whole. -/
theorem Text.IsBoundary.within (h : IsBoundary text offset) (front back : List Char) :
    IsBoundary (front ++ text ++ back) (byteSize front + offset) := by
  obtain ⟨first, second, rfl, rfl⟩ := h
  exact ⟨front ++ first, second ++ back, by simp only [List.append_assoc], byteSize_append _ _⟩

namespace Checked

/-! ## Differences -/

/-- The difference of two numbers, unless it is negative. -/
def minus (m n : Nat) : Option Nat :=
  if n ≤ m then some (m - n) else none

/-- The offset at which `rest` stands, as the difference of two sizes. -/
def offsetOf (text rest : List Char) : Option Nat :=
  minus (byteSize text) (byteSize rest)

theorem offsetOf_append (front back : List Char) :
    offsetOf (front ++ back) back = some (byteSize front) := by
  rw [offsetOf, minus, byteSize_append, if_pos (Nat.le_add_left _ _), Nat.add_sub_cancel]

/-- The offset of an end of the text is a boundary of it. -/
theorem offsetOf_of_suffix (h : rest <:+ text) :
    offsetOf text rest = some (Text.offsetOf text rest) ∧
      IsBoundary text (Text.offsetOf text rest) := by
  obtain ⟨front, rfl⟩ := h
  rw [offsetOf_append, Text.offsetOf_append]
  exact ⟨rfl, isBoundary_append front rest⟩

/-! ## Parts of a text -/

/-- What follows an offset. -/
def cutFrom (offset : Nat) (text : List Char) : Option (List Char) :=
  if IsBoundary text offset then some (dropBytes offset text) else none

/-- What stands in front of an offset. -/
def cutTo (offset : Nat) (text : List Char) : Option (List Char) :=
  if IsBoundary text offset then some (takeBytes offset text) else none

/-- What stands between two offsets. -/
def cut (start stop : Nat) (text : List Char) : Option (List Char) :=
  if start ≤ stop ∧ IsBoundary text start ∧ IsBoundary text stop then
    some (sliceBytes start stop text)
  else none

theorem cutFrom_eq (h : IsBoundary text offset) :
    cutFrom offset text = some (dropBytes offset text) :=
  if_pos h

/-- There is no cut inside a character. -/
example : cutFrom 1 ['é'] = none := by decide

theorem cutTo_eq (h : IsBoundary text offset) : cutTo offset text = some (takeBytes offset text) :=
  if_pos h

theorem dropBytes_of_cutFrom (h : cutFrom offset text = some rest) : dropBytes offset text = rest := by
  unfold cutFrom at h
  split at h
  · exact Option.some.inj h
  · cases h

theorem cutFrom_append (front back : List Char) :
    cutFrom (byteSize front) (front ++ back) = some back := by
  rw [cutFrom_eq (isBoundary_append front back), dropBytes_byteSize_append]

theorem cutTo_append (front back : List Char) :
    cutTo (byteSize front) (front ++ back) = some front := by
  rw [cutTo_eq (isBoundary_append front back), takeBytes_byteSize_append]

theorem cutFrom_add (front first back : List Char) :
    cutFrom (byteSize front + byteSize first) (front ++ (first ++ back)) = some back := by
  rw [← byteSize_append, ← List.append_assoc, cutFrom_append]

theorem cutFrom_cons (c : Char) (rest : List Char) : cutFrom c.utf8Size (c :: rest) = some rest :=
  cutFrom_append [c] rest

theorem cut_append (front text back : List Char) :
    cut (byteSize front) (byteSize front + byteSize text) (front ++ text ++ back) = some text := by
  have hstart : IsBoundary (front ++ text ++ back) (byteSize front) :=
    ⟨front, text ++ back, by rw [List.append_assoc], rfl⟩
  have hstop : IsBoundary (front ++ text ++ back) (byteSize front + byteSize text) :=
    ⟨front ++ text, back, rfl, byteSize_append _ _⟩
  rw [cut, if_pos ⟨Nat.le_add_right _ _, hstart, hstop⟩, sliceBytes_append]

/-- The offset at which a word first occurs. -/
def indexOf? (word text : List Char) : Option Nat :=
  (breakOn? word text).map fun (before, _) => byteSize before

/-! ## Computations -/

/-- One computation after another. The outer `Option` tells whether all cuts are sound, the inner
`Except` is the outcome. -/
def chain {ε α β : Type} (x : Option (Except ε α)) (next : α → Option (Except ε β)) :
    Option (Except ε β) := do
  match ← x with
  | .ok a => next a
  | .error e => return .error e

/-- If the cuts of both computations are sound, so are those of the chain. -/
theorem chain_eq {ε α β : Type} {x : Option (Except ε α)} {y : Except ε α}
    {next : α → Option (Except ε β)} {after : α → Except ε β} (hx : x = some y)
    (hnext : ∀ a, y = .ok a → next a = some (after a)) : chain x next = some (y >>= after) := by
  rw [hx]
  cases y with
  | ok a => exact hnext a rfl
  | error e => rfl

/-- What is known of the outcome of the first computation carries over to that of the chain. -/
theorem chain_located {ε α β : Type} {x : Option (Except ε α)} {y : Except ε α}
    {next : α → Option (Except ε β)} {after : α → Except ε β} {P : Except ε α → Prop}
    {Q : Except ε β → Prop} (hx : x = some y ∧ P y) (herror : ∀ e, P (.error e) → Q (.error e))
    (hnext : ∀ a, P (.ok a) → next a = some (after a) ∧ Q (after a)) :
    chain x next = some (y >>= after) ∧ Q (y >>= after) := by
  obtain ⟨rfl, hy⟩ := hx
  cases y with
  | ok a => exact hnext a hy
  | error e => exact ⟨rfl, herror e hy⟩

/-! ## Lines -/

/-- A line count that cuts the text has a result at every boundary. -/
def LinesOf (text : List Char) (lineOf? : Nat → Option Nat) (lineOf : Nat → Nat) : Prop :=
  ∀ offset, IsBoundary text offset → lineOf? offset = some (lineOf offset)

/-- The lines of a part are counted in the whole. -/
theorem LinesOf.within {lineOf? : Nat → Option Nat} {lineOf : Nat → Nat}
    (h : LinesOf (front ++ text ++ back) lineOf? lineOf) :
    LinesOf text (fun offset => lineOf? (byteSize front + offset))
      (fun offset => lineOf (byteSize front + offset)) :=
  fun _ hoffset => h _ (hoffset.within front back)

end Checked

end Cookbook
