import Cookbook.Proofs.Registration.Values

/-!
# Texts that the readers pass over

The reader of groups and the reader of values know nothing of the grammar of rules. A text that both
pass over, in front of what follows it, stays in one piece when a map is cut at its commas.

## Main definitions

* `Inside`: the reader of groups passes over a text.
* `Passed`: so does the reader of values.
* `Closes`: the reader of groups passes over a text that ends with the closing bracket.

## Main results

* `Passed.append`, `Passed.behind_gap`: texts one after the other, and gaps between them.
* `Passed.literal`, `Passed.of_solid`, `Passed.group`: what is passed over.
* `takeValue_gap_comma`: what stands behind a value up to a comma.
-/

namespace Cookbook

open Cookbook.Text

variable {c close : Char} {text other rest gap body : List Char}

/-- The reader of groups passes over the text in front of `rest`. -/
def Inside (text rest : List Char) : Prop :=
  ∀ close others, takeOwed false (close :: others) (text ++ rest) =
    keep text (takeOwed false (close :: others) rest)

/-- The readers of groups and of values pass over the text in front of `rest`. -/
structure Passed (text rest : List Char) : Prop where
  inside : Inside text rest
  outside : takeValue false (text ++ rest) = keep text (takeValue false rest)

/-- The reader of groups passes over the text in front of `rest`, with which a bracket is closed. -/
def Closes (close : Char) (text rest : List Char) : Prop :=
  ∀ others, takeOwed false (close :: others) (text ++ rest) = keep text (takeOwed false others rest)

/-! ## Inside brackets -/

theorem Row.inside (h : Row false [] text rest) : Inside text rest :=
  fun close others => h.takeOwed close others

theorem Inside.append (h : Inside text (other ++ rest)) (hother : Inside other rest) :
    Inside (text ++ other) rest := by
  intro close others
  rw [List.append_assoc, h, hother, keep_keep]

theorem Inside.closes (h : Inside text (other ++ rest)) (hother : Closes close other rest) :
    Closes close (text ++ other) rest := by
  intro others
  rw [List.append_assoc, h, hother, keep_keep]

/-- A closing bracket closes itself. -/
theorem closes_self (h : isClosing close = true) (rest : List Char) : Closes close [close] rest := by
  intro others
  rw [List.singleton_append, takeOwed]
  simp [h]

theorem closes_cons (hc : isPlain c = true) (h : Closes close text rest) :
    Closes close (c :: text) rest :=
  @Inside.closes close [c] text rest (row_plain (by simpa using hc) _).inside h

/-! ## Anywhere -/

theorem passed_nil (rest : List Char) : Passed [] rest where
  inside close others := by rw [List.nil_append, keep_nil]
  outside := by rw [List.nil_append, keep_nil]

/-- Texts one after the other. -/
theorem Passed.append (h : Passed text (other ++ rest)) (hother : Passed other rest) :
    Passed (text ++ other) rest where
  inside := h.inside.append hother.inside
  outside := by rw [List.append_assoc, h.outside, hother.outside, keep_keep]

theorem Passed.literal {value : List Char} (h : literal (text ++ rest) = .done value rest) :
    Passed text rest where
  inside close _ := takeOwed_literal h close
  outside := takeValue_literal h

/-- A character of a token outside of literals. -/
def isSolid (c : Char) : Bool :=
  isPlain c && c != ',' && !isBlank c

theorem passed_cons (hc : isSolid c = true) (rest : List Char) : Passed [c] rest := by
  obtain ⟨⟨hplain, hcomma⟩, hblank⟩ : (isPlain c = true ∧ c ≠ ',') ∧ isBlank c = false := by
    simpa [isSolid] using hc
  exact ⟨(row_plain (by simpa using hplain) rest).inside, takeValue_plain hplain hcomma hblank⟩

theorem Passed.of_solid (h : ∀ c ∈ text, isSolid c = true) (rest : List Char) : Passed text rest := by
  induction text with
  | nil => exact passed_nil rest
  | cons c text ih =>
    rw [List.forall_mem_cons] at h
    exact (passed_cons h.1 (text ++ rest)).append (ih h.2)

theorem Passed.cons (hc : isSolid c = true) (h : Passed text rest) : Passed (c :: text) rest :=
  (passed_cons hc (text ++ rest)).append h

/-- A group in brackets. -/
theorem Passed.group (hc : isOpening c = true) (h : Closes (closing c) text rest) :
    Passed (c :: text) rest where
  inside close others := by
    obtain ⟨hhash, hquote⟩ := of_isOpening hc
    have hclosing : isClosing c = false := isClosing_of_isOpening hc
    rw [List.cons_append, takeOwed]
    simp [hhash, hquote, hclosing, hc, h (close :: others), keep_keep]
  outside := by
    apply takeValue_group
    rw [List.cons_append, takeGroup, if_pos hc, h [], takeOwed]
    simp [keep]

/-! ## Gaps -/

/-- A comment in front of a value belongs to it. -/
theorem takeValue_comment_append {taken : Option (List Char × List Char)} (hbody : '\n' ∉ body)
    (hne : text ≠ []) (h : takeValue false rest = keep text taken) :
    takeValue true (body ++ '\n' :: rest) = keep (body ++ '\n' :: text) taken := by
  induction body with
  | nil =>
    rw [List.nil_append, takeValue]
    simp [isClosing, isBlank, h, keepWithin_keep hne]
  | cons c body ih =>
    rw [List.mem_cons, not_or] at hbody
    rw [List.cons_append, takeValue]
    simp [Ne.symm hbody.1, ih hbody.2, keepWithin_keep]

/-- A gap in front of a value belongs to it. -/
theorem takeValue_gap_append {taken : Option (List Char × List Char)} (hgap : IsGap gap)
    (hne : text ≠ []) (h : takeValue false rest = keep text taken) :
    takeValue false (gap ++ rest) = keep (gap ++ text) taken := by
  induction hgap with
  | nil => exact h
  | @space c gap hc _ ih =>
    obtain ⟨hhash, hquote, hopening, hclosing⟩ := of_isPlain (isPlain_of_isSpace hc)
    have hcomma : c ≠ ',' := by rintro rfl; cases hc
    rw [List.cons_append, takeValue]
    simp [hhash, hclosing, hcomma, isBlank_of_isSpace hc, ih, keepWithin_keep, hne]
  | @comment body gap hbody _ ih =>
    have hline := takeValue_comment_append hbody (by simp [hne]) ih
    rw [List.append_assoc, List.cons_append, takeValue]
    simp [isClosing, hline, keepWithin_keep]

theorem Passed.behind_gap (hgap : IsGap gap) (hne : text ≠ []) (h : Passed text rest) :
    Passed (gap ++ text) rest where
  inside := (row_gap hgap (text ++ rest)).inside.append h.inside
  outside := by rw [List.append_assoc, takeValue_gap_append hgap hne h.outside]

/-- What stands behind a value up to a comma does not belong to it. -/
theorem takeValue_gap_comma (hgap : IsGap gap) (rest : List Char) :
    takeValue false (gap ++ ',' :: rest) = some ([], ',' :: rest) :=
  takeValue_gap hgap (takeValue_comma rest)

/-! ## Ends of values -/

theorem keepWithin_inv {value : List Char} {taken : Option (List Char × List Char)}
    (h : keepWithin c taken = some (value, rest)) :
    ∃ inner, taken = some (inner, rest) ∧ value.getLast? = inner.getLast? := by
  rcases taken with _ | ⟨_ | ⟨d, inner⟩, after⟩
  · cases h
  · cases h
    exact ⟨[], rfl, rfl⟩
  · cases h
    exact ⟨d :: inner, rfl, List.getLast?_cons_cons⟩

theorem mem_getLast?_append (h : c ∈ (text ++ other).getLast?) :
    c ∈ other.getLast? ∨ other = [] ∧ c ∈ text.getLast? := by
  rw [List.getLast?_append] at h
  cases hlast : other.getLast? with
  | none =>
    rw [hlast] at h
    exact .inr ⟨List.getLast?_eq_none_iff.mp hlast, h⟩
  | some d =>
    rw [hlast] at h
    exact .inl h

/-- What is taken up to the brackets that are owed ends with the last of them. -/
theorem isClosing_getLast?_takeOwed {comment : Bool} {owed input taken : List Char}
    (h : takeOwed comment owed input = some (taken, rest)) :
    (owed ≠ [] → taken ≠ []) ∧ ∀ c ∈ taken.getLast?, isClosing c = true := by
  -- Only a closing bracket can come last, because something is owed behind all that is put in front.
  have hlonger : ∀ {front inner : List Char}, inner ≠ [] →
      (∀ c ∈ inner.getLast?, isClosing c = true) →
        front ++ inner ≠ [] ∧ ∀ c ∈ (front ++ inner).getLast?, isClosing c = true := by
    intro front inner hne hlast
    refine ⟨by simp [hne], fun c hc => ?_⟩
    exact hlast c ((mem_getLast?_append hc).resolve_right fun h => hne h.1)
  fun_induction takeOwed comment owed input generalizing taken
  case case1 =>
    cases h
    exact ⟨fun hne => absurd rfl hne, fun c hc => by cases hc⟩
  case case2 | case5 | case8 => cases h
  case case3 ih | case6 ih | case9 ih | case10 ih | case7 ih =>
    obtain ⟨inner, hinner, rfl⟩ := keep_eq_some h
    obtain ⟨hne, hlast⟩ := ih hinner
    obtain ⟨hlong, hend⟩ := hlonger (hne (List.cons_ne_nil _ _)) hlast
    exact ⟨fun _ => hlong, hend⟩
  case case4 hclosing ih =>
    obtain ⟨inner, hinner, rfl⟩ := keep_eq_some h
    refine ⟨fun _ => by simp, fun c hc => ?_⟩
    rcases mem_getLast?_append hc with hc | ⟨-, hc⟩
    · exact (ih hinner).2 c hc
    · obtain rfl := List.mem_singleton.mp (List.mem_of_getLast? hc)
      exact hclosing

/-- A value does not end in a blank. -/
theorem isBlank_getLast?_takeValue {comment : Bool} {input value : List Char}
    (h : takeValue comment input = some (value, rest)) : ∀ c ∈ value.getLast?, isBlank c = false := by
  -- A character that may be a blank is kept only as a part of a value that ends behind it. Only
  -- literals, groups and plain characters can come last.
  fun_induction takeValue comment input generalizing value
  case case1 | case3 =>
    cases h
    exact fun c hc => by cases hc
  case case7 | case9 => cases h
  case case2 ih | case4 ih | case5 ih =>
    obtain ⟨inner, hinner, hlast⟩ := keepWithin_inv h
    rw [hlast]
    exact ih hinner
  case case6 comment c text hc hstop hhash hblank hquote value after hliteral _ ih =>
    obtain ⟨inner, hinner, rfl⟩ := keep_eq_some h
    obtain ⟨w, -, htext⟩ := exists_append_of_literal hliteral
    rw [htext, front_append]
    intro d hd
    rcases mem_getLast?_append hd with hd | ⟨-, hd⟩
    · exact ih hinner d hd
    -- The literal comes last, and with it its quote.
    · have hshort : Text.literal (w ++ []) = .done value [] :=
        literal_truncate (htext ▸ hliteral)
      rw [List.append_nil] at hshort
      obtain ⟨q, hq, hquote⟩ := isQuote_getLast?_of_literal hshort
      obtain rfl : q = d := Option.some.inj (hq.symm.trans hd)
      rcases eq_of_isQuote hquote with rfl | rfl <;> rfl
  case case8 comment c text hc hstop hhash hblank hquote hopening group after hgroup _ ih =>
    obtain ⟨inner, hinner, rfl⟩ := keep_eq_some h
    obtain ⟨_, _, inside, -, ⟨⟩, rfl, hinside⟩ := takeGroup_inv hgroup
    obtain ⟨hne, hlast⟩ := isClosing_getLast?_takeOwed hinside
    intro d hd
    rcases mem_getLast?_append hd with hd | ⟨-, hd⟩
    · exact ih hinner d hd
    -- The group comes last, and with it its closing bracket.
    · have hclosing := hlast d ((@mem_getLast?_append d [c] inside hd).resolve_right fun h =>
        hne (List.cons_ne_nil _ _) h.1)
      rcases eq_of_isClosing hclosing with rfl | rfl | rfl <;> rfl
  case case10 comment c text hc hstop hhash hblank hquote hopening ih =>
    obtain ⟨inner, hinner, rfl⟩ := keep_eq_some h
    intro d hd
    rcases mem_getLast?_append hd with hd | ⟨-, hd⟩
    · exact ih hinner d hd
    · obtain rfl : c = d := by simpa using hd
      exact Bool.eq_false_iff.mpr hblank

end Cookbook
