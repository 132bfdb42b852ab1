/-!
# Searching

The first occurrence of a word in a text. `breakOn?` returns what stands before it and what follows
it, and its answer is a factoring of the text (`append_of_breakOn?`).
-/

namespace Cookbook.Text

/-- What stands before the first occurrence of `word`, and what follows that occurrence. -/
def breakOn? (word : List Char) : List Char → Option (List Char × List Char)
  | [] => if word.isEmpty then some ([], []) else none
  | c :: rest =>
    match word.isPrefixOf? (c :: rest) with
    | some after => some ([], after)
    | none =>
      match breakOn? word rest with
      | some (before, after) => some (c :: before, after)
      | none => none

/-- Whether `word` occurs. -/
def contains (word text : List Char) : Bool :=
  (breakOn? word text).isSome

/-! ## Laws -/

@[simp] theorem nil_isPrefixOf? (text : List Char) : List.isPrefixOf? [] text = some text := by
  cases text <;> rfl

@[simp] theorem cons_isPrefixOf?_cons (c d : Char) (word text : List Char) :
    (c :: word).isPrefixOf? (d :: text) = if c == d then word.isPrefixOf? text else none := rfl

theorem eq_append_of_isPrefixOf? {word text after : List Char}
    (h : word.isPrefixOf? text = some after) : text = word ++ after := by
  induction word generalizing text with
  | nil =>
    rw [nil_isPrefixOf?] at h
    exact Option.some.inj h
  | cons c word ih =>
    cases text with
    | nil => cases h
    | cons d text =>
      rw [cons_isPrefixOf?_cons] at h
      split at h
      · next hcd => rw [beq_iff_eq] at hcd; rw [hcd, ih h]; rfl
      · cases h

theorem isPrefixOf?_append (word after : List Char) :
    word.isPrefixOf? (word ++ after) = some after := by
  induction word with
  | nil => exact nil_isPrefixOf? after
  | cons c word ih => rw [List.cons_append, cons_isPrefixOf?_cons, beq_self_eq_true, if_pos rfl, ih]

/-- A search that succeeds factors the text at the word. -/
theorem append_of_breakOn? {word text before after : List Char}
    (h : breakOn? word text = some (before, after)) : text = before ++ word ++ after := by
  induction text generalizing before after with
  | nil =>
    simp only [breakOn?] at h
    split at h
    · simp_all
    · cases h
  | cons c rest ih =>
    simp only [breakOn?] at h
    split at h
    · next hp => cases h; simpa using eq_append_of_isPrefixOf? hp
    · split at h
      · next b a hb => cases h; simpa using ih hb
      · cases h

/-- A search for a character factors the text at its first occurrence. -/
theorem breakOn?_of_not_mem {d : Char} {front : List Char} (h : d ∉ front) (rest : List Char) :
    breakOn? [d] (front ++ d :: rest) = some (front, rest) := by
  induction front with
  | nil => simp [breakOn?]
  | cons c front ih =>
    rw [List.mem_cons, not_or] at h
    simp [breakOn?, h.1, ih h.2]

theorem not_mem_of_breakOn? {d : Char} {text before after : List Char}
    (h : breakOn? [d] text = some (before, after)) : d ∉ before := by
  induction text generalizing before after with
  | nil => cases h
  | cons c rest ih =>
    rw [breakOn?, cons_isPrefixOf?_cons] at h
    by_cases hd : d = c
    · simp only [hd, beq_self_eq_true, if_true, nil_isPrefixOf?] at h
      cases h
      exact List.not_mem_nil
    · simp only [beq_eq_false_iff_ne.mpr hd, Bool.false_eq_true, if_false] at h
      split at h
      · next first second hrest =>
        cases h
        rw [List.mem_cons, not_or]
        exact ⟨hd, ih hrest⟩
      · cases h

theorem not_mem_of_breakOn?_eq_none {d : Char} {text : List Char} (h : breakOn? [d] text = none) :
    d ∉ text := by
  intro hmem
  obtain ⟨before, after, rfl, hbefore⟩ := List.eq_append_cons_of_mem hmem
  rw [breakOn?_of_not_mem hbefore] at h
  cases h

end Cookbook.Text
