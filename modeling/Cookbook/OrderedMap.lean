/-!
# Maps in order of arrival

A map from names to values that remembers in which order its names first arrived. Writing a name
anew replaces its value and keeps its place.

## Main results

* `get?_insert_self`, `get?_insert_of_ne`: what a write does to look-up.
* `keys_insert`: what a write does to the order of the names.
-/

namespace Cookbook

/-- Values under distinct names, in the order in which the names first arrived. -/
structure OrderedMap (α : Type) where
  entries : List (String × α)
  nodup : (entries.map Prod.fst).Nodup

namespace OrderedMap

variable {α β : Type}

/-- The map without entries. -/
def empty : OrderedMap α := ⟨[], List.nodup_nil⟩

instance : EmptyCollection (OrderedMap α) := ⟨empty⟩

instance : Inhabited (OrderedMap α) := ⟨empty⟩

/-- The names, in order of arrival. -/
def keys (map : OrderedMap α) : List String := map.entries.map Prod.fst

/-- The values, in the order of their names. -/
def values (map : OrderedMap α) : List α := map.entries.map Prod.snd

/-- The number of names. -/
def size (map : OrderedMap α) : Nat := map.entries.length

/-- Whether there is no entry. -/
def isEmpty (map : OrderedMap α) : Bool := map.entries.isEmpty

/-- The value under a name in a list of entries: that of the first entry with the name. -/
def find? (key : String) : List (String × α) → Option α
  | [] => none
  | (k, v) :: rest => if k = key then some v else find? key rest

/-- The value under a name. -/
def get? (map : OrderedMap α) (key : String) : Option α := find? key map.entries

/-- Whether there is a value under a name. -/
def contains (map : OrderedMap α) (key : String) : Bool := (map.get? key).isSome

/-- Entries with the value of `key` replaced, or with a new entry for it at the end. -/
def write (key : String) (value : α) : List (String × α) → List (String × α)
  | [] => [(key, value)]
  | (k, v) :: rest => if k = key then (k, value) :: rest else (k, v) :: write key value rest

theorem map_fst_write (key : String) (value : α) (entries : List (String × α)) :
    (write key value entries).map Prod.fst =
      if key ∈ entries.map Prod.fst then entries.map Prod.fst
      else entries.map Prod.fst ++ [key] := by
  induction entries with
  | nil => simp [write]
  | cons entry rest ih =>
    obtain ⟨k, v⟩ := entry
    by_cases hk : k = key
    · simp [write, hk]
    · have hk' : ¬ key = k := fun h => hk h.symm
      simp only [write, hk, if_false, List.map_cons, ih, List.mem_cons, hk', false_or]
      split <;> simp

/-- Writes a value under a name. A name that is already there keeps its place. -/
def insert (map : OrderedMap α) (key : String) (value : α) : OrderedMap α where
  entries := write key value map.entries
  nodup := by
    rw [map_fst_write]
    split
    · exact map.nodup
    · next h =>
      refine List.nodup_append.2 ⟨map.nodup, by simp, fun a ha b hb hab => h ?_⟩
      rw [List.mem_singleton] at hb
      exact hb ▸ hab ▸ ha

/-- Writes a list of entries, one after the other. -/
def ofList (entries : List (String × α)) : OrderedMap α :=
  entries.foldl (fun map entry => map.insert entry.1 entry.2) empty

/-! ## Laws -/

@[simp] theorem find?_write_self (key : String) (value : α) (entries : List (String × α)) :
    find? key (write key value entries) = some value := by
  induction entries with
  | nil => simp [write, find?]
  | cons entry rest ih =>
    obtain ⟨k, v⟩ := entry
    by_cases hk : k = key <;> simp [write, find?, hk, ih]

theorem find?_write_of_ne {key other : String} (h : other ≠ key) (value : α)
    (entries : List (String × α)) :
    find? other (write key value entries) = find? other entries := by
  induction entries with
  | nil => simp [write, find?, h.symm]
  | cons entry rest ih =>
    obtain ⟨k, v⟩ := entry
    by_cases hk : k = key
    · subst hk; simp [write, find?, h.symm]
    · simp [write, find?, hk, ih]

/-- Under distinct names an entry is found by its name. -/
theorem find?_of_mem {entries : List (String × α)} (hnodup : (entries.map Prod.fst).Nodup)
    {entry : String × α} (hmem : entry ∈ entries) : find? entry.1 entries = some entry.2 := by
  induction entries with
  | nil => cases hmem
  | cons first entries ih =>
    obtain ⟨key, value⟩ := first
    rw [List.map_cons, List.nodup_cons] at hnodup
    rcases List.mem_cons.mp hmem with rfl | hmem
    · exact if_pos rfl
    · have hne : key ≠ entry.1 := fun h =>
        hnodup.1 (List.mem_map.mpr ⟨entry, hmem, h.symm⟩)
      rw [find?, if_neg hne]
      exact ih hnodup.2 hmem

/-- A name that was just written has the value written. -/
@[simp] theorem get?_insert_self (map : OrderedMap α) (key : String) (value : α) :
    (map.insert key value).get? key = some value :=
  find?_write_self key value map.entries

/-- Writing one name leaves every other as it was. -/
theorem get?_insert_of_ne (map : OrderedMap α) {key other : String} (h : other ≠ key) (value : α) :
    (map.insert key value).get? other = map.get? other :=
  find?_write_of_ne h value map.entries

/-- After a write there are the names from before and the one written. -/
theorem contains_insert_iff (map : OrderedMap α) {key other : String} (value : α) :
    (map.insert key value).contains other = true ↔ other = key ∨ map.contains other = true := by
  by_cases h : other = key
  · simp [contains, h]
  · simp [contains, h, get?_insert_of_ne map h]

/-- A known name keeps its place, a new one goes to the end. -/
theorem keys_insert (map : OrderedMap α) (key : String) (value : α) :
    (map.insert key value).keys = if key ∈ map.keys then map.keys else map.keys ++ [key] :=
  map_fst_write key value map.entries

end OrderedMap

end Cookbook
