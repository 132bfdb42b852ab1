import Cookbook.Proofs.Checked.Cuts
import Cookbook.Proofs.Registration.Values
import Cookbook.Proofs.Text.Filler

/-!
# Checked values

The reader of values as a loop that remembers where the value ends, as an offset into the text at
which it started. A group in brackets is read as values with commas between them, each of which is
cut like any other.

## Main results

* `exists_filler_of_takeValue`: a value starts the text, and filler is all that is read behind it.
* `takeOwed_of_takeValue`: what closes a group is found behind the values in it.
* `value?_eq`: all cuts of the reader are sound, and it reads the same values.
-/

namespace Cookbook

open Cookbook.Text

variable {input rest value kept skipped start text : List Char} {close c : Char} {fuel stop : Nat}
  {comment inside : Bool} {owed others : List Char} {taken : Option (List Char × List Char)}

namespace Checked

mutual

/-- The value at the start of `input`, and what follows it. The value started with the text `start`,
of which `stop` bytes are known to belong to it. The outer `Option` tells whether all cuts are sound,
the inner one whether there is a value. -/
def valueFrom : Nat → List Char → Nat → List Char → Option (Option (List Char × List Char))
  | 0, _, _, _ => none
  | fuel + 1, start, stop, input =>
    match input with
    -- The value ends here, but only the bytes that are known to belong to it are cut off.
    | [] => do return some (← cutTo stop start, [])
    | c :: rest =>
      if c == ',' || isClosing c then do return some (← cutTo stop start, c :: rest)
      else if c = '#' then valueFrom fuel start stop (rest.dropWhile (· != '\n'))
      else if isBlank c then valueFrom fuel start stop rest
      else if isQuote c then
        match literal (c :: rest) with
        | .done _ after => do valueFrom fuel start (← offsetOf start after) after
        | .stuck _ => some none
      else if isOpening c then do
        match ← groupRest fuel (closing c) rest with
        | some after => valueFrom fuel start (← offsetOf start after) after
        | none => return none
      else do valueFrom fuel start (← offsetOf start rest) rest

/-- What follows the rest of a group that `close` ends. -/
def groupRest : Nat → Char → List Char → Option (Option (List Char))
  | 0, _, _ => none
  | fuel + 1, close, input => do
    match ← valueFrom fuel input 0 input with
    | some (_, c :: rest) =>
      if c = ',' then groupRest fuel close rest
      else if c = close then return some rest
      else return none
    | _ => return none

end

/-- The value at the start of a text, and what follows it. -/
def value? (input : List Char) : Option (Option (List Char × List Char)) :=
  valueFrom (2 * input.length + 1) input 0 input

end Checked

/-! ## What is read of a text -/

theorem exists_filler_of_keepWithin {taken : Option (List Char × List Char)}
    (h : keepWithin c taken = some (value, rest))
    (htaken : ∀ inner, taken = some (inner, rest) →
      ∃ gap, input = inner ++ gap ++ rest ∧ FillerFrom (inside && inner.isEmpty) rest gap)
    (hstep : ∀ gap, FillerFrom inside rest gap → FillerFrom comment rest (c :: gap)) :
    ∃ gap, c :: input = value ++ gap ++ rest ∧ FillerFrom (comment && value.isEmpty) rest gap := by
  rcases taken with _ | ⟨_ | ⟨d, inner⟩, _⟩
  · cases h
  · cases h
    obtain ⟨gap, rfl, hgap⟩ := htaken [] rfl
    rw [List.isEmpty_nil, Bool.and_true] at hgap ⊢
    exact ⟨c :: gap, rfl, hstep gap hgap⟩
  · cases h
    obtain ⟨gap, rfl, hgap⟩ := htaken (d :: inner) rfl
    rw [List.isEmpty_cons, Bool.and_false] at hgap ⊢
    exact ⟨gap, rfl, hgap⟩

theorem exists_filler_of_keep {taken : Option (List Char × List Char)}
    (h : keep text taken = some (value, rest)) (htext : text ≠ [])
    (htaken : ∀ inner, taken = some (inner, rest) →
      ∃ gap, input = inner ++ gap ++ rest ∧ FillerFrom (false && inner.isEmpty) rest gap) :
    ∃ gap, text ++ input = value ++ gap ++ rest ∧
      FillerFrom (comment && value.isEmpty) rest gap := by
  obtain ⟨inner, hinner, rfl⟩ := keep_eq_some h
  obtain ⟨gap, rfl, hgap⟩ := htaken inner hinner
  have hvalue : (text ++ inner).isEmpty = false := by simp [htext]
  rw [hvalue, Bool.and_false]
  exact ⟨gap, by simp only [List.append_assoc], hgap⟩

/-- What is read behind a value is filler. If there is no value, it may start inside a comment. -/
theorem exists_fillerFrom_of_takeValue (h : takeValue comment input = some (value, rest)) :
    ∃ gap, input = value ++ gap ++ rest ∧ FillerFrom (comment && value.isEmpty) rest gap := by
  -- What may be layout belongs to the value if more of the value follows, and else to the filler.
  -- Only in the second case does it matter whether the text starts inside a comment.
  fun_induction takeValue comment input generalizing value with
  | case1 comment =>
    cases h
    refine ⟨[], rfl, ?_⟩
    exact fillerFrom_end _
  | case2 comment c _ hc ih =>
    obtain ⟨rfl, hline⟩ : comment = true ∧ c ≠ '\n' := by simpa using hc
    exact exists_filler_of_keepWithin h (fun _ => ih) fun gap hgap => hgap.cons_comment hline
  | case3 comment c _ hc hstop =>
    obtain rfl := eq_false_of_ne_lineFeed hc (by rintro rfl; cases hstop)
    cases h
    exact ⟨[], rfl, .nil⟩
  | case4 comment _ hc _ ih =>
    obtain rfl : comment = false := by simpa using hc
    exact exists_filler_of_keepWithin h (fun _ => ih) fun gap hgap => hgap
  | case5 comment c _ hc _ _ hblank ih =>
    refine exists_filler_of_keepWithin h (fun _ => ih) fun gap hgap => ?_
    cases comment with
    | false => exact .blank hblank hgap
    | true =>
      obtain rfl : c = '\n' := by simpa using hc
      exact hgap.lineFeed
  | case6 _ _ _ _ _ _ _ _ _ _ hliteral _ ih =>
    obtain ⟨w, hne, htext⟩ := exists_append_of_literal hliteral
    rw [htext] at h ⊢
    rw [front_append] at h
    exact exists_filler_of_keep h hne fun _ => ih
  | case7 => cases h
  | case8 _ _ _ _ _ _ _ _ _ _ _ hgroup _ ih =>
    obtain ⟨_, _, inner, -, ⟨⟩, rfl, hinner⟩ := takeGroup_inv hgroup
    rw [eq_append_of_takeOwed hinner]
    exact exists_filler_of_keep h (List.cons_ne_nil _ _) fun _ => ih
  | case9 => cases h
  | case10 _ _ _ _ _ _ _ _ _ ih =>
    exact exists_filler_of_keep h (List.cons_ne_nil _ _) fun _ => ih

/-- What is read behind a value is filler. -/
theorem exists_filler_of_takeValue (h : takeValue false input = some (value, rest)) :
    ∃ gap, input = value ++ gap ++ rest ∧ Filler rest gap :=
  exists_fillerFrom_of_takeValue h

/-! ## Values within a group -/

theorem map_snd_keep (text : List Char) (taken : Option (List Char × List Char)) :
    (keep text taken).map Prod.snd = taken.map Prod.snd := by
  cases taken <;> rfl

theorem map_snd_keepWithin (c : Char) (taken : Option (List Char × List Char)) :
    (keepWithin c taken).map Prod.snd = taken.map Prod.snd := by
  rcases taken with _ | ⟨_ | ⟨d, value⟩, rest⟩ <;> rfl

/-- A comma or a closing bracket follows a value, if anything does. -/
theorem stops_of_takeValue (h : (takeValue comment input).map Prod.snd = some (c :: rest)) :
    c = ',' ∨ isClosing c = true := by
  fun_induction takeValue comment input with
  | case1 => cases h
  | case2 _ _ _ _ ih | case4 _ _ _ _ ih | case5 _ _ _ _ _ _ _ ih =>
    rw [map_snd_keepWithin] at h
    exact ih h
  | case3 _ _ _ _ hstop =>
    cases h
    simpa using hstop
  | case6 _ _ _ _ _ _ _ _ _ _ _ _ ih | case8 _ _ _ _ _ _ _ _ _ _ _ _ _ ih
  | case10 _ _ _ _ _ _ _ _ _ ih =>
    rw [map_snd_keep] at h
    exact ih h
  | case7 => cases h
  | case9 => cases h

theorem takeOwed_stuck {rest : List Char} (hquote : isQuote c = true)
    (h : literal (c :: input) = .stuck rest) (close : Char) (others : List Char) :
    takeOwed false (close :: others) (c :: input) = none := by
  have hc : isClosing c = false ∧ c ≠ '#' := by
    rcases eq_of_isQuote hquote with rfl | rfl <;> decide
  rw [takeOwed]
  simp only [Bool.false_and, Bool.false_eq_true, if_false, hc, hquote, if_true]
  split
  · next hdone => cases hdone.symm.trans h
  · rfl

theorem takeValue_stuck (hquote : isQuote c = true) (h : literal (c :: input) = .stuck rest) :
    takeValue false (c :: input) = none := by
  have hc : c ≠ ',' ∧ isClosing c = false ∧ c ≠ '#' ∧ isBlank c = false := by
    rcases eq_of_isQuote hquote with rfl | rfl <;> decide
  rw [takeValue]
  simp only [hc, hquote, beq_eq_false_iff_ne.mpr, ne_eq, not_false_eq_true, Bool.or_self,
    Bool.false_and, Bool.false_eq_true, if_false, if_true]
  split
  · next hdone => cases hdone.symm.trans h
  · rfl

theorem takeValue_unclosed (hopening : isOpening c = true)
    (h : takeOwed false [closing c] input = none) : takeValue false (c :: input) = none := by
  have hc : c ≠ ',' ∧ isClosing c = false ∧ c ≠ '#' ∧ isBlank c = false ∧ isQuote c = false := by
    rcases eq_of_isOpening hopening with rfl | rfl | rfl <;> decide
  rw [takeValue]
  simp only [hc, hopening, beq_eq_false_iff_ne.mpr, ne_eq, not_false_eq_true, Bool.or_self,
    Bool.false_and, Bool.false_eq_true, if_false, if_true]
  split
  · next hgroup =>
    rw [takeGroup, if_pos hopening, h] at hgroup
    cases hgroup
  · rfl

/-- Brackets that are owed are closed one after the other. -/
theorem takeOwed_append_owed (h : owed = [] → comment = false) (others input : List Char) :
    (takeOwed comment (owed ++ others) input).map Prod.snd =
      ((takeOwed comment owed input).map Prod.snd).bind fun rest =>
        (takeOwed false others rest).map Prod.snd := by
  -- Both sides take the same steps until the last bracket of `owed` is closed. Only there does the
  -- second search begin, and never within a comment.
  fun_induction takeOwed comment owed input
  case case1 =>
    rw [h rfl]
    rfl
  case case2 =>
    rw [List.cons_append, takeOwed]
    rfl
  case case3 hc ih =>
    rw [List.cons_append, takeOwed, if_pos hc, map_snd_keep, map_snd_keep]
    exact ih (by simp)
  case case4 hc hclosing ih =>
    rw [List.cons_append, takeOwed, if_neg hc, if_pos hclosing, if_pos rfl, map_snd_keep,
      map_snd_keep]
    exact ih (fun _ => rfl)
  case case5 hc hclosing hclose =>
    rw [List.cons_append, takeOwed, if_neg hc, if_pos hclosing, if_neg hclose]
    rfl
  case case6 hc hclosing ih =>
    rw [List.cons_append, takeOwed, if_neg hc, if_neg hclosing, if_pos rfl, map_snd_keep,
      map_snd_keep]
    exact ih (by simp)
  case case7 hc hclosing hhash hquote value after hliteral _ ih =>
    obtain rfl := eq_false_of_quote hc hquote
    obtain ⟨w, -, htext⟩ := exists_append_of_literal hliteral
    rw [htext] at hliteral ⊢
    rw [List.cons_append, takeOwed_literal hliteral, map_snd_keep, map_snd_keep]
    exact ih (by simp)
  case case8 hc hclosing hhash hquote rest hliteral =>
    obtain rfl := eq_false_of_quote hc hquote
    rw [List.cons_append, takeOwed_stuck hquote hliteral]
    rfl
  case case9 hc hclosing hhash hquote hopening ih =>
    rw [List.cons_append, takeOwed, if_neg hc, if_neg hclosing, if_neg hhash, if_neg hquote,
      if_pos hopening, map_snd_keep, map_snd_keep]
    exact ih (by simp)
  case case10 hc hclosing hhash hquote hopening ih =>
    rw [List.cons_append, takeOwed, if_neg hc, if_neg hclosing, if_neg hhash, if_neg hquote,
      if_neg hopening, map_snd_keep, map_snd_keep]
    exact ih (by simp)

/-- A group in brackets is closed before the brackets that were open in front of it. -/
theorem takeOwed_opening (hc : ¬(comment && c != '\n') = true) (hopening : isOpening c = true)
    (close : Char) (others input : List Char) :
    (takeOwed comment (close :: others) (c :: input)).map Prod.snd =
      ((takeOwed false [closing c] input).map Prod.snd).bind fun rest =>
        (takeOwed false (close :: others) rest).map Prod.snd := by
  obtain ⟨hhash, hquote⟩ := of_isOpening hopening
  rw [← takeOwed_append_owed (fun _ => rfl), List.singleton_append, takeOwed, if_neg hc]
  simp [isClosing_of_isOpening hopening, hhash, hquote, hopening, map_snd_keep]

/-- What closes a group is found behind the values in it, and not at all behind something that is no
value. -/
theorem takeOwed_of_takeValue (close : Char) (others : List Char) (comment : Bool)
    (input : List Char) :
    (takeOwed comment (close :: others) input).map Prod.snd =
      ((takeValue comment input).map Prod.snd).bind fun rest =>
        (takeOwed false (close :: others) rest).map Prod.snd := by
  -- The induction is on the value, which the search for the bracket passes part by part.
  fun_induction takeValue comment input
  case case1 => simp [takeOwed]
  case case2 hc ih =>
    rw [takeOwed, if_pos hc, map_snd_keep, map_snd_keepWithin]
    exact ih
  case case3 hc hstop =>
    obtain rfl := eq_false_of_ne_lineFeed hc (by rintro rfl; cases hstop)
    rfl
  case case4 hc hstop ih =>
    rw [takeOwed, if_neg hc, if_neg (by decide), if_pos rfl, map_snd_keep, map_snd_keepWithin]
    exact ih
  case case5 hc hstop hhash hblank ih =>
    have hplain := of_isPlain (isPlain_of_isBlank hblank hhash)
    rw [map_snd_keepWithin, ← ih, takeOwed, if_neg hc]
    simp [hhash, hplain, map_snd_keep]
  case case6 hc hstop hhash hblank hquote value after hliteral _ ih =>
    obtain rfl := eq_false_of_quote hc hquote
    obtain ⟨w, -, htext⟩ := exists_append_of_literal hliteral
    rw [htext] at hliteral ⊢
    rw [takeOwed_literal hliteral, map_snd_keep, map_snd_keep]
    exact ih
  case case7 hc hstop hhash hblank hquote rest hliteral =>
    obtain rfl := eq_false_of_quote hc hquote
    rw [takeOwed_stuck hquote hliteral]
    rfl
  case case8 hc hstop hhash hblank hquote hopening group after hgroup _ ih =>
    obtain ⟨_, _, inner, -, ⟨⟩, rfl, hinner⟩ := takeGroup_inv hgroup
    rw [takeOwed_opening hc hopening, hinner, map_snd_keep]
    exact ih
  case case9 hc hstop hhash hblank hquote hopening hgroup =>
    rw [takeGroup, if_pos hopening, keep_eq_none_iff] at hgroup
    rw [takeOwed_opening hc hopening, hgroup]
  case case10 hc hstop hhash hblank hquote hopening ih =>
    rw [Bool.or_eq_true, not_or] at hstop
    rw [takeOwed, if_neg hc, if_neg hstop.2, if_neg hhash, if_neg hquote, if_neg hopening,
      map_snd_keep, map_snd_keep]
    exact ih

/-! ## The end of a value -/

/-- What is read when `kept` is known to belong to the value and `skipped` may follow it. Nothing
that is skipped belongs to the value if it ends there. -/
def held (kept skipped : List Char) : Option (List Char × List Char) → Option (List Char × List Char)
  | some ([], rest) => some (kept, rest)
  | some (value, rest) => some (kept ++ skipped ++ value, rest)
  | none => none

theorem held_nil (taken : Option (List Char × List Char)) : held [] [] taken = taken := by
  rcases taken with _ | ⟨_ | ⟨d, value⟩, rest⟩ <;> rfl

theorem held_keepWithin (kept skipped : List Char) (c : Char)
    (taken : Option (List Char × List Char)) :
    held kept skipped (keepWithin c taken) = held kept (skipped ++ [c]) taken := by
  rcases taken with _ | ⟨_ | ⟨d, value⟩, rest⟩
  · rfl
  · rfl
  · simp [held, keepWithin]

theorem held_keep (kept skipped : List Char) (h : text ≠ []) (taken : Option (List Char × List Char)) :
    held kept skipped (keep text taken) = held (kept ++ skipped ++ text) [] taken := by
  obtain ⟨c, tail, rfl⟩ := List.exists_cons_of_ne_nil h
  rcases taken with _ | ⟨_ | ⟨d, value⟩, rest⟩
  · rfl
  · simp [held, keep]
  · simp [held, keep]

/-- A comment is skipped up to the end of its line. -/
theorem held_takeValue_comment (kept skipped rest : List Char) :
    held kept skipped (takeValue true rest) =
      held kept (skipped ++ rest.takeWhile (· != '\n'))
        (takeValue false (rest.dropWhile (· != '\n'))) := by
  induction rest generalizing skipped with
  | nil => simp [takeValue, held]
  | cons c rest ih =>
    by_cases hc : c = '\n'
    · subst hc
      have hline : takeValue true ('\n' :: rest) = takeValue false ('\n' :: rest) := by
        simp [takeValue]
      rw [hline]
      simp
    · rw [takeValue, if_pos (by simp [hc]), held_keepWithin, ih]
      simp [hc]

namespace Checked

/-- The reader of values cuts soundly and reads the same values, if it may take `fuel` steps. -/
def ReadsValues (fuel : Nat) : Prop :=
  ∀ start kept skipped input, 2 * input.length + 1 ≤ fuel → start = kept ++ skipped ++ input →
    valueFrom fuel start (byteSize kept) input = some (held kept skipped (takeValue false input))

/-- The reader of groups finds the same end, if it may take `fuel` steps. -/
def ReadsGroups (fuel : Nat) : Prop :=
  ∀ close input, 2 * input.length + 2 ≤ fuel → isClosing close = true →
    groupRest fuel close input = some ((takeOwed false [close] input).map Prod.snd)

/-- After a part of the value, everything up to it belongs to the value. -/
theorem ReadsValues.keep (h : ReadsValues fuel) (htext : text ≠ [])
    (hfuel : 2 * rest.length + 1 ≤ fuel) (hstart : start = kept ++ skipped ++ (text ++ rest)) :
    ((offsetOf start rest).bind fun stop => valueFrom fuel start stop rest) =
      some (held kept skipped (Cookbook.keep text (takeValue false rest))) := by
  rw [← List.append_assoc] at hstart
  rw [held_keep kept skipped htext, hstart, offsetOf_append]
  exact h _ _ [] rest hfuel (by rw [List.append_nil])

/-- The steps at a literal. -/
theorem ReadsValues.quote (h : ReadsValues fuel) (hquote : isQuote c = true)
    (hfuel : 2 * (c :: rest).length + 1 ≤ fuel + 1) (hstart : start = kept ++ skipped ++ c :: rest) :
    valueFrom (fuel + 1) start (byteSize kept) (c :: rest) =
      some (held kept skipped (takeValue false (c :: rest))) := by
  have hother : c ≠ ',' ∧ isClosing c = false ∧ c ≠ '#' ∧ isBlank c = false := by
    rcases eq_of_isQuote hquote with rfl | rfl <;> decide
  rw [valueFrom]
  simp only [hother, hquote, beq_eq_false_iff_ne.mpr, ne_eq, not_false_eq_true, Bool.or_self,
    Bool.false_eq_true, if_false, if_true]
  -- A quote that opens no whole literal stops both readers.
  cases hliteral : literal (c :: rest) with
  | stuck after =>
    rw [takeValue_stuck hquote hliteral]
    rfl
  | done value after =>
    obtain ⟨w, hne, htext⟩ := exists_append_of_literal hliteral
    have hlength := length_lt_of_literal hliteral
    rw [htext] at hstart hliteral ⊢
    rw [takeValue_literal hliteral]
    exact h.keep hne (by omega) hstart

/-- The steps at an opening bracket. -/
theorem ReadsValues.opening (h : ReadsValues fuel) (hgroups : ReadsGroups fuel)
    (hopening : isOpening c = true) (hfuel : 2 * (c :: rest).length + 1 ≤ fuel + 1)
    (hstart : start = kept ++ skipped ++ c :: rest) :
    valueFrom (fuel + 1) start (byteSize kept) (c :: rest) =
      some (held kept skipped (takeValue false (c :: rest))) := by
  have hother : c ≠ ',' ∧ isClosing c = false ∧ c ≠ '#' ∧ isBlank c = false ∧ isQuote c = false := by
    rcases eq_of_isOpening hopening with rfl | rfl | rfl <;> decide
  rw [List.length_cons] at hfuel
  have hgroup := hgroups (closing c) rest (by omega) (isClosing_closing c)
  rw [valueFrom]
  simp only [hother, hopening, beq_eq_false_iff_ne.mpr, ne_eq, not_false_eq_true, Bool.or_self,
    Bool.false_eq_true, if_false, if_true, hgroup]
  cases howed : takeOwed false [closing c] rest with
  | none =>
    rw [takeValue_unclosed hopening howed]
    rfl
  | some found =>
    obtain ⟨inner, after⟩ := found
    -- What is kept now ends with the group.
    show ((offsetOf start after).bind fun stop => valueFrom fuel start stop after) = _
    have hrest := eq_append_of_takeOwed howed
    have hlength := congrArg List.length hrest
    rw [List.length_append] at hlength
    have hgroup : takeGroup (c :: inner ++ after) = some (c :: inner, after) := by
      rw [List.cons_append, ← hrest, takeGroup, if_pos hopening, howed]
      rfl
    have htext : c :: rest = c :: inner ++ after := congrArg (c :: ·) hrest
    rw [htext] at hstart ⊢
    rw [takeValue_group hgroup]
    exact h.keep (List.cons_ne_nil c inner) (by omega) hstart

theorem ReadsValues.succ (h : ReadsValues fuel) (hgroups : ReadsGroups fuel) :
    ReadsValues (fuel + 1) := by
  intro start kept skipped input hfuel hstart
  have hcut : cutTo (byteSize kept) start = some kept := by
    rw [hstart, List.append_assoc, cutTo_append]
  cases input with
  | nil =>
    rw [valueFrom, takeValue, hcut]
    rfl
  | cons c rest =>
    by_cases hquote : isQuote c = true
    · exact h.quote hquote hfuel hstart
    by_cases hopening : isOpening c = true
    · exact h.opening hgroups hopening hfuel hstart
    rw [List.length_cons] at hfuel
    rw [valueFrom, takeValue, if_neg (by simp : ¬(false && c != '\n') = true), if_neg hquote,
      if_neg hquote, if_neg hopening, if_neg hopening]
    by_cases hstop : (c == ',' || isClosing c) = true
    · rw [if_pos hstop, if_pos hstop, hcut]
      rfl
    rw [if_neg hstop, if_neg hstop]
    by_cases hhash : c = '#'
    · -- The loop skips the comment in one step, the reader one character at a time.
      have hline := List.takeWhile_append_dropWhile (p := (· != '\n')) (l := rest)
      have hlength := congrArg List.length hline
      rw [List.length_append] at hlength
      rw [if_pos hhash, if_pos hhash, held_keepWithin, held_takeValue_comment]
      refine h _ _ _ _ (by omega) ?_
      rw [hstart, ← hline]
      simp
    rw [if_neg hhash, if_neg hhash]
    by_cases hblank : isBlank c = true
    · -- A blank may stand within the value, so it is skipped and not yet kept.
      rw [if_pos hblank, if_pos hblank, held_keepWithin]
      exact h _ _ _ _ (by omega) (by rw [hstart]; simp)
    · rw [if_neg hblank, if_neg hblank]
      exact h.keep (List.cons_ne_nil c []) (by omega) hstart

theorem ReadsGroups.succ (h : ReadsGroups fuel) (hvalues : ReadsValues fuel) :
    ReadsGroups (fuel + 1) := by
  intro close input hfuel hclose
  have hvalue := hvalues input [] [] input (by omega) rfl
  rw [byteSize_nil, held_nil] at hvalue
  have hclosed := takeOwed_of_takeValue close [] false input
  rw [groupRest, hvalue, hclosed]
  rcases htake : takeValue false input with _ | ⟨value, _ | ⟨c, rest⟩⟩
  · rfl
  · simp [takeOwed]
  · obtain ⟨gap, hinput, -⟩ := exists_filler_of_takeValue htake
    have hlength := congrArg List.length hinput
    simp only [List.length_append, List.length_cons] at hlength
    have hrest := h close rest (by omega) hclose
    rcases stops_of_takeValue (congrArg (Option.map Prod.snd) htake) with rfl | hc
    -- Another value follows the comma; a closing bracket ends the group if it is the right one.
    · simp [takeOwed, hrest, isClosing, isQuote, isOpening, map_snd_keep]
    · have hcomma : c ≠ ',' := by rintro rfl; cases hc
      by_cases hend : c = close
      · subst hend
        simp [takeOwed, hcomma, hc, keep]
      · simp [takeOwed, hcomma, hc, hend]

/-- The two readers call each other with less fuel, and so they are sound together. -/
theorem readsValues_readsGroups (fuel : Nat) : ReadsValues fuel ∧ ReadsGroups fuel := by
  induction fuel with
  | zero => exact ⟨fun _ _ _ _ h => by omega, fun _ _ h => by omega⟩
  | succ fuel ih => exact ⟨ih.1.succ ih.2, ih.2.succ ih.1⟩

/-- All cuts of the reader are sound, and it reads the same values. -/
theorem value?_eq (input : List Char) : value? input = some (takeValue false input) := by
  have h := (readsValues_readsGroups _).1 input [] [] input (Nat.le_refl _) rfl
  rwa [held_nil] at h

end Checked

end Cookbook
