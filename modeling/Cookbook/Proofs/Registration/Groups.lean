import Cookbook.Proofs.Text.ScannedGroup

/-!
# Where groups in brackets end

The arguments of a call are read by a grammar, after the scan for structural characters has found
the end of the call. Both find the same end of a group in brackets unless a literal in it is torn.

## Main results

* `scanGroup?_of_takeGroup`: the scan takes a group without torn literals.
* `matchingClose?_of_takeGroup`: where the scan finds the end of a group of the grammar.
-/

namespace Cookbook

open Cookbook.Text

/-! ## The literals of a text -/

/-- The literals of a text, in order; `comment` tells whether the text starts inside a comment. -/
def literalsFrom (comment : Bool) (input : List Char) : List (List Char) :=
  match input with
  | [] => []
  | c :: rest =>
    if comment && c != '\n' then literalsFrom true rest
    else if c = '#' then literalsFrom true rest
    else if isQuote c then
      match h : literal (c :: rest) with
      | .done _ after =>
        have := length_lt_of_literal h
        front (c :: rest) after :: literalsFrom false after
      | .stuck _ => []
    else literalsFrom false rest
termination_by input.length
decreasing_by all_goals (simp only [List.length_cons] at *; omega)

/-- The literals of a text outside its comments, in order. -/
def literals (text : List Char) : List (List Char) :=
  literalsFrom false text

theorem literalsFrom_comment {c : Char} (hc : c ≠ '\n') (rest : List Char) :
    literalsFrom true (c :: rest) = literalsFrom true rest := by
  rw [literalsFrom]
  simp [hc]

theorem literalsFrom_hash (rest : List Char) :
    literalsFrom false ('#' :: rest) = literalsFrom true rest := by
  rw [literalsFrom]
  simp

theorem literalsFrom_other {comment : Bool} {c : Char} (hcomment : comment = true → c = '\n')
    (hhash : c ≠ '#') (hquote : isQuote c = false) (rest : List Char) :
    literalsFrom comment (c :: rest) = literalsFrom false rest := by
  rw [literalsFrom]
  cases comment with
  | false => simp [hhash, hquote]
  | true =>
    obtain rfl := hcomment rfl
    simp [hquote]

theorem isQuote_of_literal {c : Char} {value text rest : List Char}
    (h : literal (c :: text) = .done value rest) : isQuote c = true := by
  obtain ⟨d, body, hopen, -⟩ := eq_append_of_literal h
  obtain ⟨hq, htext⟩ := eq_append_of_open? hopen
  obtain ⟨q, triple⟩ := d
  cases triple <;> exact (List.cons.inj htext).1 ▸ hq

/-- A literal starts with a quote, which is no bracket and starts no comment. -/
theorem exists_quote_of_literal {text value rest : List Char}
    (h : literal text = .done value rest) :
    ∃ c tail, text = c :: tail ∧ isQuote c = true ∧ isClosing c = false ∧ c ≠ '#' := by
  obtain ⟨c, tail, rfl⟩ := List.exists_cons_of_length_pos (Nat.zero_lt_of_lt (length_lt_of_literal h))
  have hquote : isQuote c = true := isQuote_of_literal h
  exact ⟨c, tail, rfl, hquote, by rcases eq_of_isQuote hquote with rfl | rfl <;> decide⟩

theorem literalsFrom_literal {taken value rest : List Char}
    (h : literal (taken ++ rest) = .done value rest) :
    literalsFrom false (taken ++ rest) = taken :: literalsFrom false rest := by
  have htaken : front (taken ++ rest) rest = taken := front_append taken rest
  obtain ⟨c, tail, htext, hquote, -, hhash⟩ := exists_quote_of_literal h
  rw [htext] at h htaken ⊢
  rw [literalsFrom]
  simp only [Bool.false_and, Bool.false_eq_true, if_false, hhash, hquote, if_true]
  split
  · next hdone =>
    cases hdone.symm.trans h
    rw [htaken]
  · next hstuck => cases hstuck.symm.trans h

/-! ## Groups -/

/-- The scan passes over a literal that is not torn. -/
theorem scanOwed_literal {text value rest : List Char}
    (h : literal (text ++ rest) = .done value rest) (htorn : isTorn text = false) (depth : Nat) :
    scanOwed false (depth + 1) (text ++ rest) = keep text (scanOwed false (depth + 1) rest) := by
  have hscan := (scanLiteral?_eq_some_iff h).mpr htorn
  obtain ⟨c, tail, htext, hquote, hclosing, hhash⟩ := exists_quote_of_literal h
  rw [htext] at hscan ⊢
  rw [scanOwed]
  simp only [Bool.false_and, Bool.false_eq_true, if_false, hclosing, hhash, hquote, if_true]
  split
  · next hsome =>
    cases hsome.symm.trans hscan
    rfl
  · next hnone => cases hnone.symm.trans hscan

/-- Without torn literals, the scan takes the brackets that the grammar owes. -/
theorem scanOwed_of_takeOwed {comment : Bool} {owed input taken rest : List Char}
    (h : takeOwed comment owed input = some (taken, rest))
    (huntorn : ∀ w ∈ literalsFrom comment taken, isTorn w = false) :
    scanOwed comment owed.length input = some (taken, rest) := by
  -- The branches of the two readers correspond; only the one for literals needs the hypothesis.
  fun_induction takeOwed comment owed input generalizing taken
  case case1 input =>
    cases h
    rw [List.length_nil, scanOwed]
  case case2 | case5 | case8 => cases h
  case case3 comment close others c text hcomment ih =>
    obtain ⟨inner, hinner, rfl⟩ := keep_eq_some h
    obtain ⟨rfl, hc⟩ : comment = true ∧ c ≠ '\n' := by simpa using hcomment
    rw [List.singleton_append, literalsFrom_comment hc] at huntorn
    have ih := ih hinner huntorn
    rw [List.length_cons] at ih ⊢
    rw [scanOwed]
    simp only [hcomment, if_true, ih, keep]
  case case4 comment others c text hcomment hclosing ih =>
    obtain ⟨inner, hinner, rfl⟩ := keep_eq_some h
    have hline : comment = true → c = '\n' := by simpa using hcomment
    obtain ⟨hhash, hquote, -⟩ := of_isClosing hclosing
    rw [List.singleton_append, literalsFrom_other hline hhash hquote] at huntorn
    rw [List.length_cons, scanOwed]
    simp only [hcomment, Bool.false_eq_true, if_false, hclosing, if_true, ih hinner huntorn, keep]
  case case6 comment close others text hcomment hclosing ih =>
    obtain ⟨inner, hinner, rfl⟩ := keep_eq_some h
    obtain rfl : comment = false := by simpa using hcomment
    rw [List.singleton_append, literalsFrom_hash] at huntorn
    have ih := ih hinner huntorn
    rw [List.length_cons] at ih ⊢
    rw [scanOwed]
    simp only [hcomment, Bool.false_eq_true, if_false, hclosing, if_true, ih, keep]
  case case7 comment close others c text hcomment hclosing hhash hquote value after hliteral _ ih =>
    obtain ⟨inner, hinner, rfl⟩ := keep_eq_some h
    obtain rfl := eq_false_of_quote hcomment hquote
    obtain ⟨w, -, htext⟩ := exists_append_of_literal hliteral
    rw [htext, front_append] at huntorn ⊢
    rw [htext] at hliteral
    -- The literal is the same one in the group as in the whole text.
    have hshort : literal (w ++ inner) = .done value inner := by
      rw [eq_append_of_takeOwed hinner] at hliteral
      exact literal_truncate hliteral
    rw [literalsFrom_literal hshort, List.forall_mem_cons] at huntorn
    have ih := ih hinner huntorn.2
    rw [List.length_cons] at ih ⊢
    rw [scanOwed_literal hliteral huntorn.1, ih, keep]
  case case9 comment close others c text hcomment hclosing hhash hquote hopening ih =>
    obtain ⟨inner, hinner, rfl⟩ := keep_eq_some h
    have hline : comment = true → c = '\n' := by simpa using hcomment
    rw [List.singleton_append, literalsFrom_other hline hhash (Bool.eq_false_iff.mpr hquote)]
      at huntorn
    have ih := ih hinner huntorn
    rw [List.length_cons, List.length_cons] at ih
    rw [List.length_cons, scanOwed]
    simp only [hcomment, Bool.false_eq_true, if_false, hclosing, hhash, hquote, hopening, if_true,
      ih, keep]
  case case10 comment close others c text hcomment hclosing hhash hquote hopening ih =>
    obtain ⟨inner, hinner, rfl⟩ := keep_eq_some h
    have hline : comment = true → c = '\n' := by simpa using hcomment
    rw [List.singleton_append, literalsFrom_other hline hhash (Bool.eq_false_iff.mpr hquote)]
      at huntorn
    have ih := ih hinner huntorn
    rw [List.length_cons] at ih ⊢
    rw [scanOwed]
    simp only [hcomment, Bool.false_eq_true, if_false, hclosing, hhash, hquote, hopening, ih, keep]

theorem scanGroup?_of_takeGroup {text group after : List Char}
    (h : takeGroup text = some (group, after))
    (huntorn : ∀ w ∈ literals group, isTorn w = false) : scanGroup? text = some (group, after) := by
  obtain ⟨c, body, inner, hopening, rfl, rfl, hinner⟩ := takeGroup_inv h
  obtain ⟨hhash, hquote⟩ := of_isOpening hopening
  have hline : false = true → c = '\n' := fun h => Bool.noConfusion h
  rw [literals, literalsFrom_other hline hhash hquote] at huntorn
  have hscan : scanOwed false 1 body = some (inner, after) := scanOwed_of_takeOwed hinner huntorn
  rw [scanGroup?, if_pos hopening, hscan]
  rfl

/-- Every literal of a text is one of the grammar. -/
theorem literal_of_mem_literalsFrom {comment : Bool} {input w : List Char}
    (h : w ∈ literalsFrom comment input) : ∃ value, literal w = .done value [] := by
  fun_induction literalsFrom comment input
  case case1 => cases h
  case case2 ih | case3 ih | case6 ih => exact ih h
  case case4 c text _ _ _ value after hliteral _ ih =>
    rcases List.mem_cons.mp h with rfl | h
    · obtain ⟨w, -, htext⟩ := exists_append_of_literal hliteral
      rw [htext, front_append]
      rw [htext] at hliteral
      refine ⟨value, ?_⟩
      rw [← List.append_nil w]
      exact literal_truncate hliteral
    · exact ih h
  case case5 => cases h

/-- The scan finds the end of a group of the grammar exactly if it takes the same group. -/
theorem matchingClose?_eq_some_iff {text group after : List Char}
    (h : takeGroup text = some (group, after)) :
    matchingClose? text = some (byteSize group - 1) ↔ scanGroup? text = some (group, after) := by
  obtain ⟨c, body, inner, hopening, rfl, rfl, hinner⟩ := takeGroup_inv h
  rw [matchingClose?_eq hopening, scanGroup?, if_pos hopening, lastOf_keep]
  constructor
  · intro hclose
    obtain ⟨⟨inner', after'⟩, hscan, hlast⟩ := Option.map_eq_some_iff.mp hclose
    -- Both readings are initial parts of the text, and of the same length.
    have hsize : byteSize inner' = byteSize inner := by
      have hpos := c.utf8Size_pos
      simp only [byteSize_cons, byteSize_nil] at hlast
      omega
    have htext : inner' ++ after' = inner ++ after :=
      (eq_append_of_scanOwed hscan).symm.trans (eq_append_of_takeOwed hinner)
    have hinner' : inner' = inner := by
      rw [← takeBytes_byteSize_append inner' after', htext, hsize, takeBytes_byteSize_append]
    rw [hinner'] at htext hscan
    rw [hscan, List.append_cancel_left htext]
    rfl
  · intro hscan
    obtain ⟨inner', hscan, hgroup⟩ := keep_eq_some hscan
    obtain rfl : inner = inner' := (List.cons.inj hgroup).2
    rw [hscan, lastOf, Option.map_some, byteSize_cons, byteSize_cons, byteSize_nil]
    simp

/-- The end of a group that the grammar takes is the one that the scan finds, exactly if the scan
takes the same group. It does if no literal of the group is torn; and the torn literals are exactly
those that the two do not read alike. -/
theorem matchingClose?_of_takeGroup {text group after : List Char}
    (h : takeGroup text = some (group, after)) :
    (matchingClose? text = some (byteSize group - 1) ↔ scanGroup? text = some (group, after)) ∧
    ((∀ w ∈ literals group, isTorn w = false) →
      matchingClose? text = some (byteSize group - 1)) ∧
    ∀ w ∈ literals group, scanLiteral? w = some (w, []) ↔ isTorn w = false := by
  have hexact := matchingClose?_eq_some_iff h
  refine ⟨hexact, ?_, ?_⟩
  · intro huntorn
    exact hexact.mpr (scanGroup?_of_takeGroup h huntorn)
  · intro w hw
    obtain ⟨value, hvalue⟩ := literal_of_mem_literalsFrom hw
    rw [← List.append_nil w] at hvalue
    simpa using scanLiteral?_eq_some_iff hvalue

/-- The arguments of a call, with literals of all kinds and nested brackets. -/
def wholeCall : List Char :=
  "(R, '''a\\\\''', b=\"\"\"\\\"c\"\"\", d='e\\'f)', g=[1, \x7b2: (3)\x7d])".toList

theorem matchingClose?_wholeCall :
    takeGroup (wholeCall ++ " # )".toList) = some (wholeCall, " # )".toList) ∧
    (∀ w ∈ literals wholeCall, isTorn w = false) ∧
    matchingClose? (wholeCall ++ " # )".toList) = some (byteSize wholeCall - 1) := by
  have hgroup : takeGroup (wholeCall ++ " # )".toList) = some (wholeCall, " # )".toList) := by
    decide +kernel
  have huntorn : ∀ w ∈ literals wholeCall, isTorn w = false := by
    decide +kernel
  exact ⟨hgroup, huntorn, (matchingClose?_of_takeGroup hgroup).2.1 huntorn⟩

/-- The arguments of a call, with a torn literal. -/
def tornCall : List Char :=
  "(REG, A, preamble=\"\"\"x\\\"\"\"y\"\"\")".toList

/-- The arguments of a call, with a torn literal that holds a bracket after the escaped quotes. -/
def earlyCall : List Char :=
  "(R, \"\"\"\\\"\"\")\"\"\")".toList

/-- Torn literals mislead the scan: it finds no end of the first call, and too early an end of the
second one. -/
theorem matchingClose?_torn :
    (takeGroup tornCall = some (tornCall, []) ∧ matchingClose? tornCall = none) ∧
    takeGroup earlyCall = some (earlyCall, []) ∧ matchingClose? earlyCall = some 11 ∧
      byteSize earlyCall - 1 = 15 := by
  decide +kernel

end Cookbook
