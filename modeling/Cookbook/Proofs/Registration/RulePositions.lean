import Cookbook.Proofs.Checked.Registrations
import Cookbook.Proofs.Registration.Divisions
import Cookbook.Registration.Rules

/-!
# Positions of rules

The offset of a rule counts from the start of its map, and that of the map from the start of the
header. Their sum is the position of the rule in the header, and the sum with an offset into the rule
is the position of what stands there: this is how the compiler of rules finds the line of an error.

## Main definitions

* `Entry.Refused`: the errors about one entry, each on the line of the place that it is about.

## Main results

* `Segment.StandsIn.behind`: what follows an offset into a part stands at the sum of the offsets.
* `exists_refused_of_compileRules`: the errors of the compiler of rules are about entries.
* `splits_lossless`: what is split off a text is all that matters in it, and stands at its position.
-/

namespace Cookbook

open Cookbook.Text

variable {header text : List Char} {offset base : Nat} {segment map : Segment} {entry : Entry}
  {entries : List Entry} {lineOf : Nat → Nat} {e : Error}

/-! ## Positions in the header -/

/-- What follows an offset into a part of a text stands in the text, at the sum of the offsets. -/
theorem Segment.StandsIn.behind (h : segment.StandsIn text) (hoffset : IsBoundary segment.text offset) :
    Segment.StandsIn ⟨segment.offset + offset, dropBytes offset segment.text⟩ text := by
  obtain ⟨before, after, rfl, hsegment⟩ := h
  obtain ⟨front, back, htext, rfl⟩ := hoffset
  rw [htext, dropBytes_byteSize_append, hsegment, ← byteSize_append]
  exact ⟨before ++ front, after, by simp only [List.append_assoc], rfl⟩

/-- A part of a part stands in the whole, at the sum of the offsets. -/
theorem Segment.StandsIn.trans {part : Segment} (h : part.StandsIn segment.text)
    (hsegment : segment.StandsIn text) :
    Segment.StandsIn ⟨segment.offset + part.offset, part.text⟩ text := by
  obtain ⟨before, after, rfl, hoffset⟩ := hsegment
  rw [hoffset]
  exact h.within before after

/-- The argument map that a header declares stands in it. -/
theorem Registration.standsIn_args {registration : Registration}
    (h : Registration.parse lineOf header = .ok registration)
    (hmap : registration.settings.args = some map) : map.StandsIn header := by
  have hlines : Checked.LinesOf header (fun offset => some (lineOf offset)) lineOf := fun _ _ => rfl
  exact ((Checked.parse_eq hlines).2 registration h).1 map hmap

/-! ## Errors about rules -/

/-- An error about an entry of a map at an offset: its key has a rule already, or its text makes
none. It is reported on the line of the key, or on that of a place in the text. -/
inductive Entry.Refused (lineOf : Nat → Nat) (base : Nat) (entry : Entry) : Error → Prop where
  | key : Refused lineOf base entry
      (.malformed (lineOf (base + entry.keyOffset)) (.duplicateArgument entry.key))
  | rule {construct : Construct} {offset : Nat} : IsBoundary entry.value.text offset →
      Refused lineOf base entry
        (.unsupported entry.key construct (lineOf (base + entry.value.offset + offset)))

/-- A text that makes no rule is reported on the line of a place in it. -/
theorem exists_place_of_compile {parameter : String} (h : Rule.compile parameter text lineOf = .error e) :
    ∃ construct offset, IsBoundary text offset ∧
      e = .unsupported parameter construct (lineOf offset) := by
  have htrim : trimStart text <:+ text := List.dropWhile_suffix isBlank
  have hunread := (Grammar.skipLayout_isSuffix _).trans (Grammar.leaves_lambda text)
  have hstart := (Checked.offsetOf_of_suffix htrim).2
  have hstop := (Checked.offsetOf_of_suffix hunread).2
  unfold Rule.compile at h
  dsimp only at h
  split at h
  · split at h
    -- The text is read up to its end, or else up to the place that is reported.
    · split at h
      · cases h
      · cases h
        exact ⟨_, _, hstart, rfl⟩
    · cases h
      exact ⟨_, _, hstop, rfl⟩
  · cases h
    exact ⟨_, _, hstart, rfl⟩

theorem exists_refused_of_rulesOfEntries {earlier : List String}
    (h : rulesOfEntries lineOf base earlier entries = .error e) :
    ∃ entry ∈ entries, entry.Refused lineOf base e := by
  induction entries generalizing earlier with
  | nil => cases h
  | cons entry entries ih =>
    rw [rulesOfEntries] at h
    split at h
    · cases h
      exact ⟨entry, List.mem_cons_self, .key⟩
    · rcases bind_eq_error_iff.mp h with hrule | ⟨rule, -, h⟩
      · obtain ⟨construct, offset, hoffset, rfl⟩ := exists_place_of_compile hrule
        exact ⟨entry, List.mem_cons_self, .rule hoffset⟩
      · rcases bind_eq_error_iff.mp h with hrules | ⟨rules, -, h⟩
        · obtain ⟨other, hother, hrefused⟩ := ih hrules
          exact ⟨other, List.mem_cons_of_mem _ hother, hrefused⟩
        · cases h

/-- Once a map is split, its compilation fails for one of the entries only. -/
theorem exists_refused_of_compileRules (hsplit : splitEntries map.text = .ok entries)
    (h : compileRules lineOf map = .error e) :
    ∃ entry ∈ entries, entry.Refused lineOf map.offset e := by
  rw [compileRules, hsplit] at h
  exact exists_refused_of_rulesOfEntries h

/-! ## Splitting loses nothing -/

/-- What is split off a text is all of it but white space, comments, commas and labels, and it stands
where its offset says. The offsets of a map in its header, of an entry in the map and of a place in
the text of its rule therefore add up to the position of that place in the header, and it is such
sums whose lines the errors about rules report. -/
theorem splits_lossless :
    (∀ text arguments, splitArguments text = .ok arguments → ArgumentDivision text arguments) ∧
    (∀ text entries, splitEntries text = .ok entries → EntryDivision text entries) ∧
    ∀ lineOf header registration map entries,
      Registration.parse lineOf header = .ok registration → registration.settings.args = some map →
      splitEntries map.text = .ok entries →
      (∀ entry ∈ entries, ∀ offset, IsBoundary entry.value.text offset →
        Segment.StandsIn ⟨map.offset + entry.value.offset + offset,
          dropBytes offset entry.value.text⟩ header) ∧
      ∀ e, compileRules lineOf map = .error e →
        ∃ entry ∈ entries, entry.Refused lineOf map.offset e := by
  refine ⟨fun _ _ => argumentDivision_of_split, fun _ _ => entryDivision_of_split, ?_⟩
  intro lineOf header registration map entries hparse hargs hsplit
  have hmap : map.StandsIn header := Registration.standsIn_args hparse hargs
  refine ⟨fun entry hentry offset hoffset => ?_, fun e => exists_refused_of_compileRules hsplit⟩
  have hvalue := (entryDivision_of_split hsplit).standsIn entry hentry
  exact (hvalue.trans hmap).behind hoffset

/-- The arguments of a call with comments, a comma behind the last one, and an argument map. -/
def looseInner : List Char :=
  " REG ,# c, d\n A,args = \x7b # ü\n 'p' :lambda t, u: [t.x] # e\n , \"q\": lambda: '\x7d' \x7d , ".toList

def looseHeader : List Char :=
  "# é\n@register(".toList ++ looseInner ++ [')']

/-- The map at its offset in the header. -/
def looseMap : Segment :=
  ⟨38, "\x7b # ü\n 'p' :lambda t, u: [t.x] # e\n , \"q\": lambda: '\x7d' \x7d".toList⟩

def looseArguments : List (Argument Segment) :=
  [⟨none, ⟨1, "REG".toList⟩⟩, ⟨none, ⟨14, "A".toList⟩⟩, ⟨some "args", ⟨23, looseMap.text⟩⟩]

def looseEntries : List Entry :=
  [⟨"p", 8, ⟨13, "lambda t, u: [t.x]".toList⟩⟩, ⟨"q", 39, ⟨44, "lambda: '\x7d'".toList⟩⟩]

/-- What the header declares. -/
def loose : Registration :=
  ⟨"register", ["A"], ⟨some looseMap, none, none, []⟩, 5, 99⟩

/-- The bracket that makes no rule is the character with the offset 13 of its text, which has the
offset 13 in the map. -/
theorem splits_lossless_loose :
    splitArguments looseInner = .ok looseArguments ∧ ArgumentDivision looseInner looseArguments ∧
    splitEntries looseMap.text = .ok looseEntries ∧ EntryDivision looseMap.text looseEntries ∧
    Registration.parse id looseHeader = .ok loose ∧
    Segment.StandsIn ⟨38 + 13 + 13, "[t.x]".toList⟩ looseHeader ∧
    compileRules id looseMap = .error (.unsupported "p" .subscript 64) ∧
    ∃ entry ∈ looseEntries, entry.Refused id 38 (.unsupported "p" .subscript 64) := by
  have harguments : splitArguments looseInner = .ok looseArguments :=
    eq_ok_of_toOption (by decide +kernel)
  have hentries : splitEntries looseMap.text = .ok looseEntries :=
    eq_ok_of_toOption (by decide +kernel)
  have hparse : Registration.parse id looseHeader = .ok loose := eq_ok_of_toOption (by decide +kernel)
  have hrules : compileRules id looseMap = .error (.unsupported "p" .subscript 64) :=
    eq_error_of_errorOf? (by decide +kernel)
  obtain ⟨hdivided, hlocated, hplaces⟩ := splits_lossless
  obtain ⟨hstands, hrefused⟩ := hplaces id looseHeader loose looseMap looseEntries hparse rfl hentries
  have hplace := hstands _ List.mem_cons_self 13 (by decide)
  exact ⟨harguments, hdivided _ _ harguments, hentries, hlocated _ _ hentries, hparse, hplace, hrules,
    hrefused _ hrules⟩

end Cookbook
