import Cookbook.Proofs.Registration.Arranged
import Cookbook.Proofs.Registration.Passing

/-!
# Items with whole values

Anything that the reader of values takes whole may be the value of an item: names, literals, groups,
sums, calls, comments between them, or nothing at all. However such items are written, they are
split off again with their labels and values.

## Main definitions

* `IsItem`: an item with a whole value.
* `Laid`: items with commas between them.
* `SplitAs`: what is read of items; an empty one at the end is not seen.

## Main results

* `takeLabel_append`: what follows a positional value makes no label of its start.
* `splitArguments_laid`: items are split off as they were written.
* `Laid.row`: the text of items is a row.
-/

namespace Cookbook

open Cookbook.Text Cookbook.Grammar

/-- An item whose value is taken whole and has no backslash. Layout in front of the value belongs to
the gap before it. A positional value does not start with a label. -/
structure IsItem (item : Argument (List Char)) : Prop where
  whole : takeValue false item.value = some (item.value, [])
  plain : '\\' ∉ item.value
  starts : ∀ c ∈ item.value.head?, startsGap c = false
  labelled : ∀ id ∈ item.label, isIdentifier id.toList = true
  unlabelled : item.label = none → takeLabel item.value = (none, item.value)

/-- An item with the gaps around its tokens. The equals sign may not seem to be doubled. -/
inductive WrittenItem : Argument (List Char) → List Char → Prop where
  | positional {gap value after : List Char} : IsGap gap → IsGap after →
      WrittenItem ⟨none, value⟩ (gap ++ value ++ after)
  | labelled {id : String} {gap before behind value after : List Char} : IsGap gap →
      IsGap before → IsGap behind → (behind ++ value).head? ≠ some '=' → IsGap after →
      WrittenItem ⟨some id, value⟩
        (gap ++ (id.toList ++ before ++ '=' :: behind) ++ value ++ after)

/-- Items with commas between them. A comma may stand behind the last one. -/
inductive Laid : List (Argument (List Char)) → List Char → Prop where
  | nil {gap : List Char} : IsGap gap → Laid [] gap
  | last {item : Argument (List Char)} {text : List Char} : WrittenItem item text →
      Laid [item] text
  | cons {item : Argument (List Char)} {items : List (Argument (List Char))}
      {text more : List Char} : WrittenItem item text → Laid items more →
      Laid (item :: items) (text ++ ',' :: more)

/-- Arguments with the labels and the texts of items. At the end an empty positional item is not
seen. -/
def SplitAs (items : List (Argument (List Char))) (arguments : List (Argument Segment)) : Prop :=
  arguments.map (Argument.map Segment.text) = items ∨
    arguments.map (Argument.map Segment.text) ++ [⟨none, []⟩] = items

variable {item : Argument (List Char)} {items : List (Argument (List Char))}
  {value text rest after lay : List Char}

/-! ## Values -/

/-- Layout alone is no value. -/
theorem takeValue_of_layout {comment : Bool} (h : skipLayoutFrom comment lay = []) :
    takeValue comment lay = some ([], []) := by
  -- A value keeps layout only if more of the value follows, and here nothing does.
  induction lay generalizing comment with
  | nil => rw [takeValue]
  | cons c lay ih =>
    rw [skipLayoutFrom] at h
    cases comment with
    | true =>
      rw [if_pos rfl] at h
      by_cases hc : c = '\n'
      · subst hc
        have hrest : takeValue false lay = some ([], []) := ih h
        rw [takeValue]
        simp [isClosing, isBlank, hrest, keepWithin]
      · rw [bne_iff_ne.mpr hc] at h
        rw [takeValue]
        simp [hc, ih h, keepWithin]
    | false =>
      rw [if_neg Bool.false_ne_true] at h
      split at h
      · next hspace =>
        obtain ⟨hhash, -, -, hclosing⟩ := of_isPlain (isPlain_of_isSpace hspace)
        have hcomma : c ≠ ',' := ne_of_test hspace (by decide)
        rw [takeValue]
        simp [hhash, hclosing, hcomma, isBlank_of_isSpace hspace, ih h, keepWithin]
      · split at h
        · next hsign =>
          subst hsign
          rw [takeValue]
          simp [isClosing, ih h, keepWithin]
        · cases h

theorem forall_head?_gap {p : Char → Prop} (hafter : IsGap after)
    (hgap : ∀ c, startsGap c = true → p c) (hrest : ∀ c ∈ rest.head?, p c) :
    ∀ c ∈ (after ++ rest).head?, p c := by
  intro c hc
  rcases hafter.eq_nil_or_cons with rfl | ⟨d, more, rfl, hd⟩
  · exact hrest c hc
  · obtain rfl : d = c := by simpa using hc
    exact hgap d hd

theorem unquoted_gap (hafter : IsGap after) (hrest : Unquoted rest) : Unquoted (after ++ rest) := by
  refine forall_head?_gap hafter (fun c hc => ?_) hrest
  simp [isQuote, ne_of_test hc (show startsGap '"' = false by decide),
    ne_of_test hc (show startsGap '\'' = false by decide)]

theorem unquoted_end (hrest : ∀ c ∈ rest.head?, c = ',') : Unquoted rest := by
  intro c hc
  rw [hrest c hc]
  decide

theorem IsItem.keptRow (h : IsItem item) (hrest : Unquoted rest) : KeptRow false item.value rest :=
  keptRow_of_takeValue rest h.whole rfl h.plain (.inr hrest) fun _ => rfl

/-- A whole value is taken with the gap behind it. -/
theorem IsItem.takes (h : IsItem item) (hafter : IsGap after) (hrest : ∀ c ∈ rest.head?, c = ',') :
    takeValue false (item.value ++ (after ++ rest)) = some (item.value, rest) := by
  have hkept := h.keptRow (unquoted_gap hafter (unquoted_end hrest))
  rw [hkept.takes, takeValue_gap hafter (takeValue_end hrest)]
  simp [keep]

/-! ## Labels -/

/-- A word that a doubled equals sign follows is no label. -/
theorem label_stuck_of_doubled {id : Parser String} {found : String} {input more : List Char}
    (h : id input = .done found rest) (hsign : skipLayout rest = '=' :: '=' :: more) :
    label id input = .stuck input := by
  simp only [label, h, hsign]

/-- A text that starts like an identifier starts with one. -/
theorem exists_identifier {c : Char} (hc : isIdentStart c = true) (tail : List Char) :
    ∃ (id : String) (left : List Char), isIdentifier id.toList = true ∧
      c :: tail = id.toList ++ left ∧ ∀ d ∈ left.head?, isIdentChar d = false := by
  have hrun : identifier (c :: tail) = .done (String.ofList (c :: tail.takeWhile isIdentChar))
      (tail.dropWhile isIdentChar) := by
    rw [identifier, if_pos hc]
  exact ⟨_, _, identifier_inv hrun⟩

/-- Behind the word at the start of a positional value stands no equals sign, or a doubled one. -/
theorem of_takeLabel_none {id : String} {left : List Char} (h : takeLabel value = (none, value))
    (hid : identifier value = .done id left) :
    (skipLayout left).head? ≠ some '=' ∨ ∃ more, skipLayout left = '=' :: '=' :: more := by
  cases hskip : skipLayout left with
  | nil => exact .inl (by simp)
  | cons d more =>
    by_cases hd : d = '='
    · subst hd
      refine .inr ?_
      cases more with
      | nil => simp [takeLabel, label, hid, hskip] at h
      | cons e more =>
        by_cases he : e = '='
        · exact ⟨more, by rw [he]⟩
        · simp [takeLabel, label, hid, hskip, he] at h
    · exact .inl (by simpa using hd)

/-- What follows a positional value makes no label of its start. -/
theorem takeLabel_append (hlabel : takeLabel value = (none, value))
    (hwhole : takeValue false value = some (value, [])) (hrest : Boundary rest)
    (hsign : (skipLayout rest).head? ≠ some '=') :
    takeLabel (value ++ rest) = (none, value ++ rest) := by
  have hend : ∀ d ∈ rest.head?, isIdentChar d = false := fun d hd => (hrest d hd).1
  have hother : ∀ c tail, value ++ rest = c :: tail → isIdentStart c = false →
      takeLabel (value ++ rest) = (none, value ++ rest) := by
    intro c tail htext hc
    rw [htext]
    exact takeLabel_of_not_isIdentStart hc tail
  cases value with
  | nil =>
    cases rest with
    | nil => exact hlabel
    | cons c rest =>
      refine hother c rest rfl (Bool.eq_false_iff.mpr fun hc => ?_)
      exact absurd (isIdentChar_of_isIdentStart hc) (by simp [hend c rfl])
  | cons c tail =>
    cases hc : isIdentStart c with
    | false => exact hother c (tail ++ rest) rfl hc
    | true =>
      obtain ⟨id, left, hid, htext, hleft⟩ := exists_identifier hc tail
      rw [htext] at hlabel hwhole ⊢
      rw [List.append_assoc]
      have hshort : identifier (id.toList ++ left) = .done id left := identifier_append hid hleft
      have hlong : identifier (id.toList ++ (left ++ rest)) = .done id (left ++ rest) := by
        apply identifier_append hid
        cases left with
        | nil => exact hend
        | cons d left => exact hleft
      -- Layout at the end would not be a part of a whole value.
      have hlayout : skipLayout left = [] → left = [] := by
        intro hlay
        rw [takeValue_identChars (forall_isIdentChar hid), takeValue_of_layout hlay] at hwhole
        simpa [keep] using hwhole
      have hstuck : label identifier (id.toList ++ (left ++ rest)) =
          .stuck (id.toList ++ (left ++ rest)) := by
        cases hskip : skipLayout left with
        | nil =>
          obtain rfl := hlayout hskip
          exact label_stuck_of_done hlong hsign
        | cons d more =>
          have hmore := skipLayout_append hskip rest
          rcases of_takeLabel_none hlabel hshort with hne | ⟨doubled, hdoubled⟩
          · rw [hskip] at hne
            exact label_stuck_of_done hlong (by rwa [hmore])
          · cases hskip.symm.trans hdoubled
            exact label_stuck_of_doubled hlong hmore
      rw [takeLabel, hstuck]

/-! ## One item -/

theorem skipLayout_end (hrest : ∀ c ∈ rest.head?, c = ',') : skipLayout rest = rest := by
  cases rest with
  | nil => rfl
  | cons c rest =>
    obtain rfl : c = ',' := hrest c rfl
    exact skipLayout_cons (by decide)

/-- Layout is skipped in front of a value only if the value is empty. -/
theorem IsItem.skipLayout_eq (h : IsItem item) (hafter : IsGap after)
    (hrest : ∀ c ∈ rest.head?, c = ',') :
    item.value = [] ∧ skipLayout (item.value ++ (after ++ rest)) = rest ∨
      item.value ≠ [] ∧
        skipLayout (item.value ++ (after ++ rest)) = item.value ++ (after ++ rest) := by
  have hstarts := h.starts
  cases hvalue : item.value with
  | nil => exact .inl ⟨rfl, by rw [List.nil_append, skipLayout_gap hafter, skipLayout_end hrest]⟩
  | cons c tail =>
    rw [hvalue] at hstarts
    exact .inr ⟨List.cons_ne_nil c tail, skipLayout_cons (hstarts c rfl)⟩

theorem IsItem.takes_skipLayout (h : IsItem item) (hafter : IsGap after)
    (hrest : ∀ c ∈ rest.head?, c = ',') :
    takeValue false (skipLayout (item.value ++ (after ++ rest))) = some (item.value, rest) := by
  rcases h.skipLayout_eq hafter hrest with ⟨hvalue, hskip⟩ | ⟨-, hskip⟩
  · rw [hskip, hvalue, takeValue_end hrest]
  · rw [hskip, h.takes hafter hrest]

theorem IsItem.takeLabel_skipLayout (h : IsItem item) (hlabel : item.label = none)
    (hafter : IsGap after) (hrest : ∀ c ∈ rest.head?, c = ',') :
    takeLabel (skipLayout (item.value ++ (after ++ rest))) =
      (none, skipLayout (item.value ++ (after ++ rest))) := by
  rcases h.skipLayout_eq hafter hrest with ⟨-, hskip⟩ | ⟨-, hskip⟩
  · rw [hskip]
    cases rest with
    | nil => rfl
    | cons c rest =>
      obtain rfl : c = ',' := hrest c rfl
      exact takeLabel_of_not_isIdentStart (by decide) rest
  · rw [hskip]
    exact takeLabel_append (h.unlabelled hlabel) h.whole (boundary_after hafter hrest)
      (head?_skipLayout_after hafter hrest)

/-- One item is split off, unless it is an empty one at the end. -/
theorem argumentsFrom_item (h : WrittenItem item text) (hitem : IsItem item)
    (hrest : ∀ c ∈ rest.head?, c = ',') (hseen : item = ⟨none, []⟩ → rest ≠ [])
    (whole : List Char) (fuel : Nat) :
    ∃ offset, argumentsFrom whole (fuel + 1) (text ++ rest) =
      withOthers ⟨item.label, ⟨offset, item.value⟩⟩ (argumentsFrom whole fuel) rest := by
  -- An item is read in two steps: its label, which may be missing, and its value with the gap
  -- behind it.
  cases h with
  | @positional gap value after hgap hafter =>
    refine ⟨_, argumentsFrom_step whole ?_ ?_ (hitem.takeLabel_skipLayout rfl hafter hrest)
      (hitem.takes_skipLayout hafter hrest) hrest fuel⟩
    · rw [List.append_assoc, List.append_assoc, skipLayout_gap hgap]
    -- The reader ends where nothing but layout is left, which is in front of an empty item at the
    -- end.
    · rcases hitem.skipLayout_eq hafter hrest with ⟨rfl, hskip⟩ | ⟨hne, hskip⟩
      · rw [hskip]
        exact hseen rfl
      · rw [hskip]
        exact List.append_ne_nil_of_left_ne_nil hne _
  | @labelled id gap before behind value after hgap hbefore hbehind hsign hafter =>
    have hid : isIdentifier id.toList = true := hitem.labelled id rfl
    obtain ⟨c, tail, hcons, hc, -⟩ := exists_cons_of_isIdentifier hid
    have hend : ∀ c ∈ (after ++ rest).head?, c ≠ '=' :=
      forall_head?_gap hafter (fun c hc => ne_of_test hc (by decide)) fun c hc => by
        rw [hrest c hc]
        decide
    -- The equals sign of the label is not doubled: what follows is a gap, the value, or the end of
    -- it.
    have hsingle : (behind ++ (value ++ (after ++ rest))).head? ≠ some '=' := by
      rw [← List.append_assoc]
      cases hfront : behind ++ value with
      | nil => exact fun hhead => hend '=' hhead rfl
      | cons d more =>
        rw [hfront] at hsign
        exact hsign
    refine ⟨_, argumentsFrom_step whole ?_ ?_ (takeLabel_labelled hid hbefore hbehind hsingle)
      (hitem.takes_skipLayout hafter hrest) hrest fuel⟩
    · have htext : gap ++ (id.toList ++ before ++ '=' :: behind) ++ value ++ after ++ rest =
          gap ++ (id.toList ++ before ++ '=' :: behind ++ (value ++ (after ++ rest))) := by simp
      rw [htext, skipLayout_gap hgap, hcons]
      exact skipLayout_cons (of_isIdentStart hc).1
    · simp [hcons]

theorem row_item (h : WrittenItem item text) (hitem : IsItem item) (hrest : Unquoted rest) :
    Row false [] text rest := by
  have hvalue {after : List Char} (hafter : IsGap after) :
      Row false [] item.value (after ++ rest) :=
    (hitem.keptRow (unquoted_gap hafter hrest)).row
  cases h with
  | positional hgap hafter =>
    exact ((row_gap hgap _).append (hvalue hafter)).append (row_gap hafter rest)
  | labelled hgap hbefore hbehind _ hafter =>
    have hfront := row_labelled (hitem.labelled _ rfl) hbefore hbehind
    exact (((row_gap hgap _).append (hfront _)).append (hvalue hafter)).append (row_gap hafter rest)

/-! ## All items -/

theorem argumentsFrom_laid (h : Laid items text) (hitems : ∀ item ∈ items, IsItem item)
    (whole : List Char) {fuel : Nat} (hfuel : text.length < fuel) :
    ∃ found, argumentsFrom whole fuel text = .ok found ∧ SplitAs items found := by
  induction h generalizing fuel with
  | nil hgap =>
    obtain ⟨fuel, rfl⟩ := Nat.exists_eq_add_one_of_ne_zero (Nat.ne_zero_of_lt hfuel)
    exact ⟨[], argumentsFrom_gap hgap whole fuel, .inl rfl⟩
  | @last item text hwritten =>
    obtain ⟨fuel, rfl⟩ := Nat.exists_eq_add_one_of_ne_zero (Nat.ne_zero_of_lt hfuel)
    by_cases hempty : item = ⟨none, []⟩
    · -- Nothing but layout is left, so the reader ends.
      subst hempty
      cases hwritten with
      | positional hgap hafter =>
        refine ⟨[], ?_, .inr rfl⟩
        rw [argumentsFrom, List.append_nil, skipLayout_gap hgap, skipLayout_eq_nil_of_gap hafter]
    · have hend : ∀ c ∈ ([] : List Char).head?, c = ',' := by simp
      obtain ⟨offset, hstep⟩ := argumentsFrom_item hwritten (hitems item List.mem_cons_self) hend
        (fun h => absurd h hempty) whole fuel
      rw [List.append_nil] at hstep
      exact ⟨[⟨item.label, ⟨offset, item.value⟩⟩], hstep, .inl rfl⟩
  | @cons item items text more hwritten _ ih =>
    obtain ⟨fuel, rfl⟩ := Nat.exists_eq_add_one_of_ne_zero (Nat.ne_zero_of_lt hfuel)
    rw [List.forall_mem_cons] at hitems
    have hmore : more.length < fuel := by
      rw [List.length_append, List.length_cons] at hfuel
      omega
    obtain ⟨found, hfound, hreads⟩ := ih hitems.2 hmore
    have hcomma : ∀ c ∈ (',' :: more).head?, c = ',' := by simp
    obtain ⟨offset, hstep⟩ := argumentsFrom_item hwritten hitems.1 hcomma
      (fun _ => List.cons_ne_nil _ _) whole fuel
    refine ⟨⟨item.label, ⟨offset, item.value⟩⟩ :: found, ?_, ?_⟩
    · rw [hstep, withOthers, hfound]
      rfl
    · exact hreads.imp (congrArg (item :: ·)) (congrArg (item :: ·))

/-- Items are split off as they were written. -/
theorem splitArguments_laid (h : Laid items text) (hitems : ∀ item ∈ items, IsItem item) :
    ∃ found, splitArguments text = .ok found ∧ SplitAs items found :=
  argumentsFrom_laid h hitems text (Nat.lt_succ_self _)

/-- Brackets, commas and hashes in the values mislead no scan. -/
theorem Laid.row (h : Laid items text) (hitems : ∀ item ∈ items, IsItem item)
    (hrest : Unquoted rest) : Row false [] text rest := by
  induction h with
  | nil hgap => exact row_gap hgap rest
  | last hwritten => exact row_item hwritten (hitems _ List.mem_cons_self) hrest
  | @cons item items text more hwritten _ ih =>
    rw [List.forall_mem_cons] at hitems
    have hcomma : Unquoted (',' :: (more ++ rest)) := unquoted_end (by simp)
    exact (row_item hwritten hitems.1 hcomma).append (.code (by decide) (ih hitems.2))

end Cookbook
