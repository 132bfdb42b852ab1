import Cookbook.Proofs.Registration.Values

/-!
# Arguments with commas between them

Arguments may be written with gaps around every token and with a comma behind the last one. However
they are written, the same arguments are split off again, each at the offset of its value, as long
as the values are taken whole (`IsValue`).

## Main definitions

* `PlacedArgument`: one argument with the gaps around it.
* `Arranged`: arguments with commas between them, at an offset.

## Main results

* `splitArguments_arranged`: the arguments are split off as they were arranged.
* `Arranged.row`: brackets, commas and hashes in the values mislead no scan.
* `Arranged.locates`: the value of every argument stands at its offset.
-/

namespace Cookbook

open Cookbook.Text Cookbook.Grammar

/-- An argument with its label and the gaps around its tokens, at an offset. -/
inductive PlacedArgument (offset : Nat) : Argument Segment → List Char → Prop where
  | intro {label : Option String} {gap front value after : List Char} : IsGap gap →
      WrittenLabel label front → IsGap after →
      PlacedArgument offset ⟨label, ⟨offset + byteSize (gap ++ front), value⟩⟩
        (gap ++ front ++ value ++ after)

/-- Arguments with commas between them, at an offset. A comma may stand behind the last one. -/
inductive Arranged : Nat → List (Argument Segment) → List Char → Prop where
  | nil {offset : Nat} {gap : List Char} : IsGap gap → Arranged offset [] gap
  | last {offset : Nat} {argument : Argument Segment} {text : List Char} :
      PlacedArgument offset argument text → Arranged offset [argument] text
  | cons {offset : Nat} {argument : Argument Segment} {arguments : List (Argument Segment)}
      {text more : List Char} : PlacedArgument offset argument text →
      Arranged (offset + byteSize text + 1) arguments more →
      Arranged offset (argument :: arguments) (text ++ ',' :: more)

variable {offset : Nat} {argument : Argument Segment} {arguments : List (Argument Segment)}
  {label : Option String} {front value after text rest : List Char}

/-! ## One argument -/

theorem takeValue_end (hrest : ∀ c ∈ rest.head?, c = ',') :
    takeValue false rest = some ([], rest) := by
  cases rest with
  | nil => exact takeValue_nil
  | cons c rest =>
    obtain rfl : c = ',' := hrest c rfl
    exact takeValue_comma rest

/-- What follows the value of an argument continues neither a name nor a literal. -/
theorem boundary_after (hafter : IsGap after) (hrest : ∀ c ∈ rest.head?, c = ',') :
    Boundary (after ++ rest) := by
  apply boundary_gap hafter
  intro c hc
  rw [hrest c hc]
  decide

theorem head?_skipLayout_after (hafter : IsGap after) (hrest : ∀ c ∈ rest.head?, c = ',') :
    (skipLayout (after ++ rest)).head? ≠ some '=' := by
  rw [skipLayout_gap hafter]
  cases rest with
  | nil => exact fun h => nomatch h
  | cons c rest =>
    obtain rfl : c = ',' := hrest c rfl
    rw [skipLayout_cons (by decide)]
    exact fun h => absurd (Option.some.inj h) (by decide)

theorem IsValue.takes_end (hvalue : IsValue value) (hafter : IsGap after)
    (hrest : ∀ c ∈ rest.head?, c = ',') :
    takeValue false (value ++ (after ++ rest)) = some (value, rest) := by
  have hquote := (boundary_after hafter hrest).head?_ne_quote
  rw [hvalue.takes _ hquote, takeValue_gap hafter (takeValue_end hrest)]
  simp [keep]

/-- A label is taken with the gaps around its equals sign. -/
theorem takeLabel_labelled {id : String} {gap : List Char} (hid : isIdentifier id.toList = true)
    (hgap : IsGap gap) (hafter : IsGap after) (hsingle : (after ++ rest).head? ≠ some '=') :
    takeLabel (id.toList ++ gap ++ '=' :: after ++ rest) = (some id, skipLayout rest) := by
  -- No name goes on in the first gap, and no second sign follows.
  have hend : ∀ d ∈ (gap ++ '=' :: (after ++ rest)).head?, isIdentChar d = false :=
    fun d hd => (boundary_gap hgap (.cons rfl) d hd).1
  have htext : id.toList ++ gap ++ '=' :: after ++ rest =
      id.toList ++ (gap ++ '=' :: (after ++ rest)) := by simp
  have hdone : Grammar.label Grammar.identifier (id.toList ++ gap ++ '=' :: after ++ rest) =
      .done id (after ++ rest) := by
    rw [htext]
    exact label_done (identifier_append hid hend) hgap hsingle
  simp only [takeLabel, hdone, skipLayout_gap hafter]

/-- The label in front of a value is taken, and none where none is written. -/
theorem takeLabel_written (hlabel : WrittenLabel label front) (hvalue : IsValue value)
    (hrest : Boundary rest) (hsign : (skipLayout rest).head? ≠ some '=') :
    takeLabel (front ++ (value ++ rest)) = (label, value ++ rest) := by
  obtain ⟨c, tail, htext, hc, hequals⟩ := hvalue.starts
  cases hlabel with
  | positional => exact hvalue.unlabelled rest hrest hsign
  | @labelled id gap after hid hgap hafter =>
    have hsingle : (after ++ (value ++ rest)).head? ≠ some '=' := by
      rcases hafter.eq_nil_or_cons with rfl | ⟨d, more, rfl, hd⟩
      · simpa [htext] using hequals
      · simpa using ne_of_test hd (by decide)
    rw [takeLabel_labelled hid.1 hgap hafter hsingle, htext, List.cons_append, skipLayout_cons hc]

/-- No layout stands in front of a label or a value. -/
theorem skipLayout_written (hlabel : WrittenLabel label front) (hvalue : IsValue value)
    (rest : List Char) :
    ∃ c tail, front ++ (value ++ rest) = c :: tail ∧
      skipLayout (front ++ (value ++ rest)) = front ++ (value ++ rest) := by
  -- The first character is that of the label, or else that of the value.
  have hcons : ∃ c tail, front ++ (value ++ rest) = c :: tail ∧ startsGap c = false := by
    cases hlabel with
    | positional =>
      obtain ⟨c, tail, rfl, hc, -⟩ := hvalue.starts
      exact ⟨c, tail ++ rest, rfl, hc⟩
    | labelled hid _ _ =>
      obtain ⟨c, tail, htext, hc, -⟩ := exists_cons_of_isIdentifier hid.1
      exact ⟨c, _, by rw [htext]; rfl, (of_isIdentStart hc).1⟩
  obtain ⟨c, tail, htext, hc⟩ := hcons
  exact ⟨c, tail, htext, by rw [htext, skipLayout_cons hc]⟩

/-- An argument with the others, which follow behind a comma. -/
def withOthers (argument : Argument Segment)
    (others : List Char → Except Nat (List (Argument Segment))) :
    List Char → Except Nat (List (Argument Segment))
  | [] => .ok [argument]
  | _ :: more => do return argument :: (← others more)

/-- One argument is split off. -/
theorem argumentsFrom_step {input start left : List Char} (whole : List Char)
    (hinput : skipLayout input = start) (hne : start ≠ []) (hlabel : takeLabel start = (label, left))
    (hvalue : takeValue false left = some (value, rest)) (hrest : ∀ c ∈ rest.head?, c = ',')
    (fuel : Nat) :
    argumentsFrom whole (fuel + 1) input =
      withOthers ⟨label, ⟨offsetOf whole left, value⟩⟩ (argumentsFrom whole fuel) rest := by
  obtain ⟨c, tail, rfl⟩ := List.exists_cons_of_ne_nil hne
  -- The reader looks whether anything is left, takes the label, and then the value.
  rw [argumentsFrom, hinput]
  simp only [hlabel, hvalue]
  cases rest with
  | nil => rfl
  | cons c rest =>
    obtain rfl : c = ',' := hrest c rfl
    rfl

theorem argumentsFrom_written {before : List Char}
    (h : PlacedArgument (byteSize before) argument text) (hvalue : IsValue argument.value.text)
    (hrest : ∀ c ∈ rest.head?, c = ',') (fuel : Nat) :
    argumentsFrom (before ++ (text ++ rest)) (fuel + 1) (text ++ rest) =
      withOthers argument (argumentsFrom (before ++ (text ++ rest)) fuel) rest := by
  obtain @⟨label, gap, front, value, after, hgap, hlabel, hafter⟩ := h
  obtain ⟨c, tail, hcons, hskip⟩ := skipLayout_written hlabel hvalue (after ++ rest)
  -- The gap in front is skipped, and the label behind it is read up to the value.
  have hinput : skipLayout (gap ++ front ++ value ++ after ++ rest) =
      front ++ (value ++ (after ++ rest)) := by
    have htext : gap ++ front ++ value ++ after ++ rest =
        gap ++ (front ++ (value ++ (after ++ rest))) := by simp
    rw [htext, skipLayout_gap hgap, hskip]
  have hoffset : offsetOf (before ++ (gap ++ front ++ value ++ after ++ rest))
      (value ++ (after ++ rest)) = byteSize before + byteSize (gap ++ front) := by
    have htext : before ++ (gap ++ front ++ value ++ after ++ rest) =
        (before ++ (gap ++ front)) ++ (value ++ (after ++ rest)) := by simp
    rw [htext, offsetOf_append, byteSize_append]
  have htaken := takeLabel_written hlabel hvalue (boundary_after hafter hrest)
    (head?_skipLayout_after hafter hrest)
  rw [argumentsFrom_step _ hinput (by simp [hcons]) htaken (hvalue.takes_end hafter hrest) hrest,
    hoffset]

/-! ## All arguments -/

theorem argumentsFrom_gap {gap : List Char} (hgap : IsGap gap) (whole : List Char) (fuel : Nat) :
    argumentsFrom whole (fuel + 1) gap = .ok [] := by
  rw [argumentsFrom, skipLayout_eq_nil_of_gap hgap]

theorem argumentsFrom_arranged {before : List Char} {fuel : Nat}
    (h : Arranged offset arguments text) (hvalues : ∀ a ∈ arguments, IsValue a.value.text)
    (hoffset : offset = byteSize before) (hfuel : text.length < fuel) :
    argumentsFrom (before ++ text) fuel text = .ok arguments := by
  -- What has been split off moves to the text before, so that the offsets count from the start.
  induction h generalizing before fuel with
  | nil hgap =>
    obtain ⟨fuel, rfl⟩ := Nat.exists_eq_add_one_of_ne_zero (Nat.ne_zero_of_lt hfuel)
    exact argumentsFrom_gap hgap _ fuel
  | @last offset argument text hargument =>
    rw [List.forall_mem_singleton] at hvalues
    subst hoffset
    obtain ⟨fuel, rfl⟩ := Nat.exists_eq_add_one_of_ne_zero (Nat.ne_zero_of_lt hfuel)
    have hend : ∀ c ∈ ([] : List Char).head?, c = ',' := by simp
    have hstep := argumentsFrom_written hargument hvalues hend fuel
    rwa [List.append_nil] at hstep
  | @cons offset argument arguments text more hargument _ ih =>
    rw [List.forall_mem_cons] at hvalues
    subst hoffset
    obtain ⟨fuel, rfl⟩ := Nat.exists_eq_add_one_of_ne_zero (Nat.ne_zero_of_lt hfuel)
    have hmore : argumentsFrom (before ++ text ++ [','] ++ more) fuel more = .ok arguments := by
      apply ih hvalues.2
      · simp only [byteSize_append, Nat.add_assoc]
        rfl
      · rw [List.length_append, List.length_cons] at hfuel
        omega
    have htext : before ++ text ++ [','] ++ more = before ++ (text ++ ',' :: more) := by simp
    rw [htext] at hmore
    rw [argumentsFrom_written hargument hvalues.1 (by simp) fuel, withOthers, hmore]
    rfl

/-- Arguments are split off as they were arranged. -/
theorem splitArguments_arranged (h : Arranged 0 arguments text)
    (hvalues : ∀ a ∈ arguments, IsValue a.value.text) : splitArguments text = .ok arguments := by
  have hall : argumentsFrom ([] ++ text) (text.length + 1) text = .ok arguments :=
    argumentsFrom_arranged h hvalues rfl (Nat.lt_succ_self _)
  exact hall

/-! ## The text of the arguments as a row -/

theorem row_labelled {id : String} {gap : List Char} (hid : isIdentifier id.toList = true)
    (hgap : IsGap gap) (hafter : IsGap after) (rest : List Char) :
    Row false [] (id.toList ++ gap ++ '=' :: after) rest := by
  have hword := fun c hc => (isPlain_of_isIdentChar (forall_isIdentChar hid c hc)).1
  exact ((row_plain hword _).append (row_gap hgap _)).append
    (.code (by decide) (row_gap hafter rest))

theorem row_label (h : WrittenLabel label front) (rest : List Char) : Row false [] front rest := by
  cases h with
  | positional => exact .nil
  | labelled hid hgap hafter => exact row_labelled hid.1 hgap hafter rest

theorem row_written (h : PlacedArgument offset argument text) (hvalue : IsValue argument.value.text)
    (hrest : rest.head? ≠ some '"') : Row false [] text rest := by
  obtain @⟨label, gap, front, value, after, hgap, hlabel, hafter⟩ := h
  -- A value is a row only where no double quote follows it: two literals would become one.
  have hvalueRow : Row false [] value (after ++ rest) := by
    apply hvalue.row
    rcases hafter.eq_nil_or_cons with rfl | ⟨c, tail, rfl, hc⟩
    · exact hrest
    · simpa using ne_of_test hc (by decide)
  exact (((row_gap hgap _).append (row_label hlabel _)).append hvalueRow).append (row_gap hafter rest)

/-- Arguments with commas between them are passed over by the scan and by the readers. -/
theorem Arranged.row (h : Arranged offset arguments text)
    (hvalues : ∀ a ∈ arguments, IsValue a.value.text) (hrest : rest.head? ≠ some '"') :
    Row false [] text rest := by
  induction h with
  | nil hgap => exact row_gap hgap rest
  | last hargument => exact row_written hargument (hvalues _ List.mem_cons_self) hrest
  | cons hargument _ ih =>
    rw [List.forall_mem_cons] at hvalues
    exact (row_written hargument hvalues.1 (by simp)).append (.code (by decide) (ih hvalues.2))

/-! ## Offsets -/

/-- Moves an argument to where its text stands. -/
def Argument.shifted (base : Nat) (argument : Argument Segment) : Argument Segment :=
  ⟨argument.label, ⟨base + argument.value.offset, argument.value.text⟩⟩

theorem PlacedArgument.exists_shifted {base : Nat} (h : PlacedArgument (base + offset) argument text) :
    ∃ found, PlacedArgument offset found text ∧ found.shifted base = argument := by
  obtain ⟨hgap, hlabel, hafter⟩ := h
  refine ⟨_, ⟨hgap, hlabel, hafter⟩, ?_⟩
  rw [Argument.shifted, Nat.add_assoc]

/-- Arguments at an offset are arguments that are moved there. -/
theorem Arranged.exists_shifted {base : Nat} (h : Arranged (base + offset) arguments text) :
    ∃ found, Arranged offset found text ∧ found.map (·.shifted base) = arguments := by
  generalize hoffset : base + offset = start at h
  induction h generalizing offset with
  | nil hgap => exact ⟨[], .nil hgap, rfl⟩
  | last hargument =>
    subst hoffset
    obtain ⟨found, hfound, rfl⟩ := hargument.exists_shifted
    exact ⟨[found], .last hfound, rfl⟩
  | @cons start argument arguments text more hargument _ ih =>
    subst hoffset
    obtain ⟨found, hfound, rfl⟩ := hargument.exists_shifted
    have hnext : base + (offset + byteSize text + 1) = base + offset + byteSize text + 1 := by
      simp only [Nat.add_assoc]
    obtain ⟨others, hothers, rfl⟩ := ih hnext
    exact ⟨found :: others, .cons hfound hothers, rfl⟩

/-- The value of every argument stands at its offset. -/
theorem Arranged.locates (h : Arranged offset arguments text) :
    ∀ argument ∈ arguments, ∃ before after, text = before ++ argument.value.text ++ after ∧
      argument.value.offset = offset + byteSize before := by
  have hone : ∀ {offset argument text}, PlacedArgument offset argument text →
      ∃ before after, text = before ++ argument.value.text ++ after ∧
        argument.value.offset = offset + byteSize before :=
    fun ⟨_, _, _⟩ => ⟨_, _, rfl, rfl⟩
  induction h with
  | nil => exact fun _ hmem => nomatch hmem
  | last hargument => simpa using hone hargument
  | @cons offset first arguments text more hargument _ ih =>
    intro argument hmem
    rcases List.mem_cons.mp hmem with rfl | hmem
    · obtain ⟨before, after, htext, hoffset⟩ := hone hargument
      exact ⟨before, after ++ ',' :: more, by simp [htext], hoffset⟩
    · obtain ⟨before, after, htext, hoffset⟩ := ih argument hmem
      refine ⟨text ++ ',' :: before, after, by simp [htext], ?_⟩
      rw [hoffset, byteSize_append, byteSize_cons, show ','.utf8Size = 1 from rfl]
      omega

end Cookbook
