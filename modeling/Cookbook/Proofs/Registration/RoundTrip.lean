import Cookbook.Proofs.Registration.Written

/-!
# Written registrations are read back

A registration that is written down in a header, in whatever way, is read back from it: the scan
that looks for the end of the call, the reader that splits its arguments, and the readers of the
single values agree with what has been written, whatever its texts and comments hold.

## Main results

* `Registration.parse_written`: what is read is what was written, and the argument map stands where
  the registration says.
-/

namespace Cookbook

open Cookbook.Text

variable {α : Type} {name : String} {names : List String} {text rest : List Char}

/-! ## Trimming -/

theorem trim_identifier (h : isIdentifier text = true) : trim text = text :=
  trim_identChars (forall_isIdentChar h)

theorem trim_quoted (value : List Char) : trim (quoted value) = quoted value := by
  have hblank : isBlank '"' = false := by decide
  have hlast : (quoted value).getLast? = some '"' := List.getLast?_concat
  apply trim_eq_self
  · simp [quoted, hblank]
  · simp [hlast, hblank]

theorem literalValue?_quoted (value : List Char) : literalValue? (quoted value) = some value := by
  have h : literal (quoted value ++ []) = .done value [] := literal_quoted (by simp)
  rw [List.append_nil] at h
  rw [literalValue?, trim_quoted, h]

/-! ## Lists -/

section Lists

variable {item : α → List Char → Prop} {values : List α}

theorem WrittenList.isValue (hitem : ∀ {value text}, item value text → IsValue text)
    (h : WrittenList item values text) : IsValue text := by
  obtain ⟨arguments, inner, rfl, harranged, hitems⟩ := h
  have hvalues : ∀ a ∈ arguments, IsValue a.value.text := by
    intro a ha
    obtain ⟨value, -, -, hwritten⟩ := exists_mem_of_forall₂ hitems a ha
    exact hitem hwritten
  exact .group (c := '[') rfl fun rest => harranged.row hvalues (by simp [closing])

/-- A written list is read item by item. -/
theorem WrittenList.reads {read : List Char → Option α}
    (hitem : ∀ {value text}, item value text → IsValue text ∧ read text = some value)
    (h : WrittenList item values text) :
    ∃ inner, bracketed? text = some inner ∧ listItems? read inner = some values := by
  obtain ⟨arguments, inner, rfl, harranged, hitems⟩ := h
  refine ⟨inner, by simp [bracketed?], ?_⟩
  have hvalues : ∀ a ∈ arguments, IsValue a.value.text := by
    intro a ha
    obtain ⟨value, -, -, hwritten⟩ := exists_mem_of_forall₂ hitems a ha
    exact (hitem hwritten).1
  rw [listItems?, splitArguments_arranged harranged hvalues]
  -- The items are those that were written, in the same order.
  refine mapM_eq_some_iff.mpr (hitems.flip.imp ?_)
  rintro a value ⟨hlabel, hwritten⟩
  rw [Argument.isPositional, hlabel, Option.isNone_none, if_pos rfl, (hitem hwritten).2]

end Lists

/-! ## Names and texts -/

theorem WrittenName.reads (h : WrittenName name text) :
    IsValue text ∧ constraintName? text = some name := by
  cases h with
  | bare hname =>
    refine ⟨.identifier hname, ?_⟩
    simp [constraintName?, trim_identifier hname, hname]
  | quoted hname =>
    refine ⟨.quoted _, ?_⟩
    have hquote : isIdentifier (Text.quoted name.toList) = false := rfl
    simp [constraintName?, trim_quoted, hquote, literalValue?_quoted, hname]

theorem WrittenText.reads {value : String} (h : WrittenText value text) :
    IsValue text ∧ (literalValue? text).map String.ofList = some value := by
  rw [WrittenText] at h
  subst h
  exact ⟨.quoted _, by simp [literalValue?_quoted]⟩

theorem WrittenTarget.isValue (h : WrittenTarget names text) : IsValue text := by
  cases h with
  | one hname => exact .identifier hname
  | many _ hlist => exact hlist.isValue fun hname => hname.reads.1

theorem WrittenTarget.reads (h : WrittenTarget names text) : constraintNames? text = some names := by
  cases h with
  | @one name hname =>
    obtain ⟨c, tail, htext, hc, -⟩ := exists_cons_of_isIdentifier hname
    -- A name does not start with a bracket, so it is not taken for a list.
    have hbracket : bracketed? name.toList = none := by
      rw [htext]
      exact bracketed?.eq_2 _ (by rintro rest ⟨⟩; cases hc)
    rw [constraintNames?, hbracket]
    simp [(WrittenName.bare hname).reads.2]
  | many hne hlist =>
    obtain ⟨inner, hbracket, hitems⟩ := hlist.reads WrittenName.reads
    obtain ⟨name, more, rfl⟩ := List.exists_cons_of_ne_nil hne
    rw [constraintNames?, hbracket]
    simp only [hitems]

theorem literalList?_written {texts : List String} (h : WrittenList WrittenText texts text) :
    literalList? text = some texts := by
  obtain ⟨inner, hbracket, hitems⟩ := h.reads WrittenText.reads
  rw [literalList?, hbracket]
  exact hitems

/-! ## Contents -/

namespace Content

variable {content : Content} {contents : List Content} {argument : Argument Segment}
  {arguments : List (Argument Segment)} {settings : Settings}

theorem Written.isValue (h : content.Written argument) : IsValue argument.value.text := by
  cases h with
  | handle hname => exact .identifier hname
  | target htarget => exact htarget.isValue
  | args hmap => exact hmap.isValue
  | entrypoint htext => exact htext.reads.1
  | preamble htext => exact htext.reads.1
  | requirements _ hlist => exact hlist.isValue fun htext => htext.reads.1

/-- The settings after an argument with this content. -/
def apply (settings : Settings) : Content → Settings
  | handle _ | target _ => settings
  | args map => { settings with args := some map }
  | entrypoint text => { settings with entrypoint := some text }
  | preamble text => { settings with preamble := some text }
  | requirements _ texts => { settings with requirements := texts }

theorem Written.label_eq (h : content.Written argument) : argument.label = content.label? := by
  cases h <;> rfl

/-- A labelled argument sets what its content says. -/
theorem Written.set_eq {label : String} (h : content.Written argument)
    (hlabel : content.label? = some label) :
    settings.set label argument.value = .ok (content.apply settings) := by
  cases h with
  | handle | target => cases hlabel
  | args => cases hlabel; rfl
  | entrypoint htext | preamble htext =>
    cases hlabel
    obtain ⟨value, hvalue, rfl⟩ := Option.map_eq_some_iff.mp htext.reads.2
    simp [Settings.set, hvalue, apply]
  | requirements hmem hlist =>
    cases hlabel
    have hread := literalList?_written hlist
    simp only [List.mem_cons, List.not_mem_nil, or_false] at hmem
    rcases hmem with rfl | rfl <;> simp [Settings.set, hread, apply]

/-- Labelled arguments are read in order, if no label is used twice. -/
theorem read_written {seen : List String} (h : List.Forall₂ Content.Written contents arguments)
    (hnew : ∀ label ∈ contents.filterMap label?, label ∉ seen)
    (hnodup : (contents.filterMap label?).Nodup) :
    settings.read seen arguments = .ok (contents.foldl apply settings) := by
  -- Labels that were used before and labels that follow stay apart.
  induction h generalizing seen settings with
  | nil => rfl
  | @cons content argument contents arguments hwritten _ ih =>
    have hlabel := hwritten.label_eq
    have hset : ∀ label, content.label? = some label →
        settings.set label argument.value = .ok (content.apply settings) :=
      fun label hlabel => hwritten.set_eq hlabel
    obtain ⟨_, value⟩ := argument
    obtain rfl := hlabel
    cases hcontent : content.label? with
    | none =>
      have happly : content.apply settings = settings := by
        cases content <;> first | rfl | cases hcontent
      rw [List.filterMap_cons_none hcontent] at hnew hnodup
      rw [Settings.read, List.foldl_cons, happly]
      exact ih hnew hnodup
    | some label =>
      rw [List.filterMap_cons_some hcontent] at hnew hnodup
      rw [List.forall_mem_cons] at hnew
      rw [List.nodup_cons] at hnodup
      have hfresh : ∀ other ∈ contents.filterMap label?, other ∉ label :: seen := by
        intro other hmem
        rw [List.mem_cons, not_or]
        exact ⟨by rintro rfl; exact hnodup.1 hmem, hnew.2 other hmem⟩
      rw [Settings.read, if_neg hnew.1, hset label hcontent]
      exact ih hfresh hnodup.2

/-- The positional arguments are those without a label. -/
theorem positionals_written (h : List.Forall₂ Content.Written contents arguments) :
    List.Forall₂ (fun content value => content.Written ⟨none, value⟩)
      (contents.filter (·.label?.isNone)) (Argument.positionals arguments) := by
  induction h with
  | nil => exact .nil
  | @cons content argument contents arguments hwritten _ ih =>
    have hlabel := hwritten.label_eq
    obtain ⟨_, value⟩ := argument
    obtain rfl := hlabel
    cases hcontent : content.label? with
    | none =>
      rw [List.filter_cons_of_pos (by simp [hcontent])]
      rw [hcontent] at hwritten
      exact .cons hwritten ih
    | some label =>
      rw [List.filter_cons_of_neg (by simp [hcontent])]
      exact ih

end Content

/-! ## Registrations -/

namespace Registration

open Content

variable {registration : Registration} {settings : Settings} {contents labelled : List Content}

/-- Contents under different labels may change places. -/
theorem Labelled.apply_comm (h : Labelled settings labelled) {first second : Content}
    (hfirst : first ∈ labelled) (hsecond : second ∈ labelled) (start : Settings) :
    (second.apply (first.apply start)) = first.apply (second.apply start) := by
  cases first <;> cases second <;> try rfl
  -- Two contents that set the same thing are one and the same, because each is made but once.
  all_goals cases h <;> simp_all [settingContents, apply]

theorem Labelled.foldl_apply (h : Labelled settings labelled) :
    labelled.foldl apply Settings.none = settings := by
  obtain ⟨args, entrypoint, preamble, requirements⟩ := settings
  cases h with
  | listed => cases args <;> cases entrypoint <;> cases preamble <;> rfl
  | omitted hnone =>
    obtain rfl : requirements = [] := hnone
    cases args <;> cases entrypoint <;> cases preamble <;> rfl

theorem foldl_filter_labelled (settings : Settings) :
    contents.foldl apply settings = (contents.filter (·.label?.isSome)).foldl apply settings := by
  induction contents generalizing settings with
  | nil => rfl
  | cons content contents ih =>
    cases content <;> exact ih _

theorem Listed.foldl_apply (h : registration.Listed contents) :
    contents.foldl apply Settings.none = registration.settings := by
  obtain ⟨labelled, hlabelled, hperm⟩ := h.labelled
  -- Positional arguments set nothing, and the order of the others does not matter.
  rw [foldl_filter_labelled, hperm.foldl_eq' fun first hfirst second hsecond start =>
    hlabelled.apply_comm (hperm.mem_iff.mp hfirst) (hperm.mem_iff.mp hsecond) start]
  exact hlabelled.foldl_apply

theorem Labelled.nodup (h : Labelled settings labelled)
    (hwritten : ∀ content ∈ labelled, ∃ argument, content.Written argument) :
    (labelled.filterMap label?).Nodup := by
  obtain ⟨args, entrypoint, preamble, requirements⟩ := settings
  cases h with
  | listed label =>
    obtain ⟨_, hlabel⟩ := hwritten (.requirements label requirements) (by simp)
    cases hlabel with
    | requirements hmem _ =>
      simp only [List.mem_cons, List.not_mem_nil, or_false] at hmem
      rcases hmem with rfl | rfl <;> cases args <;> cases entrypoint <;> cases preamble <;>
        simp [settingContents, label?]
  | omitted =>
    cases args <;> cases entrypoint <;> cases preamble <;> simp [settingContents, label?]

theorem Listed.nodup {arguments : List (Argument Segment)} (h : registration.Listed contents)
    (hwritten : List.Forall₂ Content.Written contents arguments) :
    (contents.filterMap label?).Nodup := by
  obtain ⟨labelled, hlabelled, hperm⟩ := h.labelled
  have hlabels : (contents.filterMap label?).Perm (labelled.filterMap label?) := by
    have hfilter : contents.filterMap label? =
        (contents.filter (·.label?.isSome)).filterMap label? := by
      rw [List.filterMap_filter]
      congr
      funext content
      cases content.label? <;> rfl
    rw [hfilter]
    exact hperm.filterMap _
  -- The label of the requirements is one of two, because they are written under it.
  refine hlabels.nodup_iff.mpr (hlabelled.nodup fun content hmem => ?_)
  have hmem : content ∈ contents := List.mem_of_mem_filter (hperm.mem_iff.mpr hmem)
  obtain ⟨argument, -, hargument⟩ := exists_mem_of_forall₂ hwritten.flip content hmem
  exact ⟨argument, hargument⟩

section Written

variable {site : CallSite} {arguments : List (Argument Segment)}

theorem Written.isValue (h : registration.Written site contents arguments) :
    ∀ a ∈ arguments, IsValue a.value.text := by
  intro a ha
  obtain ⟨content, -, hcontent⟩ := exists_mem_of_forall₂ h.written a ha
  exact hcontent.isValue

/-- The call is found, whatever its arguments hold. -/
theorem Written.find_call (h : registration.Written site contents arguments) :
    Call.find site.header = .ok site.call :=
  site.find_header (h.arranged.row h.isValue (by simp))

/-- The arguments are split off where they stand in the header. -/
theorem Written.arguments_call (h : registration.Written site contents arguments) :
    site.call.arguments site.header = .ok arguments := by
  have hshifted : Arranged (site.call.openAt + 1 + 0) arguments site.inner := h.arranged
  obtain ⟨found, harranged, rfl⟩ := hshifted.exists_shifted
  have hvalues : ∀ a ∈ found, IsValue a.value.text := fun a ha =>
    h.isValue (a.shifted _) (List.mem_map.mpr ⟨a, ha, rfl⟩)
  rw [Call.arguments, site.inner_header, splitArguments_arranged harranged hvalues]
  rfl

/-- The second positional argument lists the constraints. -/
theorem Written.target (h : registration.Written site contents arguments) :
    ∃ first second, Argument.positionals arguments = [first, second] ∧
      constraintNames? second.text = some registration.constraints := by
  obtain ⟨handle, hpositional⟩ := h.listed.positional
  have hvalues := positionals_written h.written
  rw [hpositional] at hvalues
  obtain ⟨first, _, -, hmore, hfirst⟩ := List.forall₂_cons_left_iff.mp hvalues
  obtain ⟨second, _, hsecond, hnil, rfl⟩ := List.forall₂_cons_left_iff.mp hmore
  obtain rfl := List.forall₂_nil_left_iff.mp hnil
  refine ⟨first, second, hfirst, ?_⟩
  cases hsecond with
  | target htarget => exact htarget.reads

theorem Written.find_eq (h : registration.Written site contents arguments) :
    Registration.find site.header = .ok registration := by
  obtain ⟨first, second, hpositionals, hconstraints⟩ := h.target
  have hsettings : Settings.none.read [] arguments = .ok registration.settings := by
    rw [read_written h.written (by simp) (h.listed.nodup h.written), h.listed.foldl_apply]
  -- What is left of the registration is where the call stands.
  obtain ⟨name, constraints, settings, start, stop⟩ := registration
  obtain rfl : name = site.call.name := h.name
  obtain rfl : start = site.call.start := h.start
  obtain rfl : stop = site.call.closeAt + 1 := h.stop
  simp [Registration.find, h.find_call, h.arguments_call, hsettings, hpositionals, hconstraints,
    bind, Except.bind, pure, Except.pure]

/-- The argument map stands at its offset. -/
theorem Written.slice_args (h : registration.Written site contents arguments) {map : Segment}
    (hmap : map ∈ registration.settings.args) :
    sliceBytes map.offset (map.offset + byteSize map.text) site.header = map.text := by
  obtain ⟨labelled, hlabelled, hperm⟩ := h.listed.labelled
  have hsome : registration.settings.args = some map := hmap
  have hlisted : Content.args map ∈ labelled := by
    cases hlabelled <;> simp [settingContents, hsome]
  have hmem : Content.args map ∈ contents := List.mem_of_mem_filter (hperm.mem_iff.mpr hlisted)
  obtain ⟨argument, hargument, hwritten⟩ := exists_mem_of_forall₂ h.written.flip _ hmem
  cases hwritten
  -- The map is the value of a placed argument, so it stands in the header behind the opening
  -- parenthesis at its offset.
  obtain ⟨before, after, hinner, hoffset⟩ := h.arranged.locates _ hargument
  have hheader : site.header =
      (site.opening ++ '(' :: before) ++ map.text ++ (after ++ ')' :: site.after) := by
    simp [CallSite.header, hinner]
  have hstart : map.offset = byteSize (site.opening ++ '(' :: before) := by
    rw [hoffset, byteSize_append, byteSize_cons, ← Nat.add_assoc]
    rfl
  rw [hheader, hstart]
  exact sliceBytes_append _ _ _

end Written

/-- A registration is read back from every header in which it is written down. It spans the call
from its at sign to its closing parenthesis, and its argument map stands where it says. -/
theorem parse_written {site : CallSite} {arguments : List (Argument Segment)} (lineOf : Nat → Nat)
    (h : registration.Written site contents arguments) :
    parse lineOf site.header = .ok registration ∧
      sliceBytes registration.start registration.stop site.header = site.text ∧
      ∀ map ∈ registration.settings.args,
        sliceBytes map.offset (map.offset + byteSize map.text) site.header = map.text := by
  refine ⟨by rw [parse, h.find_eq], ?_, fun map hmap => h.slice_args hmap⟩
  rw [h.start, h.stop, site.slice_header]

/-- A call behind lines that look like one. Its literals and comments hold brackets, commas, quotes
and signs of comments, and its keywords stand between and behind the positional arguments. -/
def crowdedSite : CallSite where
  lines := ["# \"(".toList, "@@a(b)".toList, "@c\t".toList]
  indent := ['\t']
  name := "1st".toList
  gap := [' ']
  inner := (" # h, )\n R , preamble=\"(\\\",#\\né\" ,[\"A\", B , # ]\n ], args\n= " ++
    "\x7b\"k\": t[\")\"] # \x7d'\n\x7d ,requirements=[\"a,\", \"]#\" ], ").toList
  after := "\n(".toList
  isLine := by decide
  earlier := by decide
  isIndent := List.forall_mem_singleton.mpr (by decide)
  isWord := ⟨by decide, List.all_eq_true.mp (by decide)⟩
  isGap := List.forall_mem_singleton.mpr (by decide)

/-- The argument map there. -/
def crowdedMap : Segment :=
  ⟨83, "\x7b\"k\": t[\")\"] # \x7d'\n\x7d".toList⟩

/-- What is declared there. -/
def crowded : Registration where
  name := "1st"
  constraints := ["A", "B"]
  settings := ⟨some crowdedMap, none, some "(\",#\né", ["a,", "]#"]⟩
  start := 17
  stop := 133

/-- The contents of the arguments there. -/
def crowdedContents : List Content :=
  [.handle "R", .preamble "(\",#\né", .target ["A", "B"], .args crowdedMap,
    .requirements "requirements" ["a,", "]#"]]

/-- The arguments there. -/
def crowdedArguments : List (Argument Segment) :=
  [⟨none, ⟨32, "R".toList⟩⟩, ⟨some "preamble", ⟨45, "\"(\\\",#\\né\"".toList⟩⟩,
    ⟨none, ⟨58, "[\"A\", B , # ]\n ]".toList⟩⟩, ⟨some "args", crowdedMap⟩,
    ⟨some "requirements", ⟨117, "[\"a,\", \"]#\" ]".toList⟩⟩]

theorem listed_crowded : crowded.Listed crowdedContents where
  positional := ⟨"R", rfl⟩
  labelled := ⟨_, .listed "requirements", by decide⟩

theorem written_crowded : List.Forall₂ Content.Written crowdedContents crowdedArguments := by
  have hline : IsGap " # ]\n ".toList :=
    .space rfl (@IsGap.comment " ]".toList [' '] (by decide) .blank)
  have hnames : WrittenList WrittenName ["A", "B"] "[\"A\", B , # ]\n ]".toList :=
    ⟨[⟨none, ⟨0, "\"A\"".toList⟩⟩, ⟨none, ⟨5, "B".toList⟩⟩], "\"A\", B , # ]\n ".toList,
      rfl, .cons (.intro .nil .positional .nil) (.cons (.intro .blank .positional .blank) (.nil hline)),
      .cons ⟨rfl, .quoted (by decide)⟩ (.cons ⟨rfl, .bare (by decide)⟩ .nil)⟩
  have htexts : WrittenList WrittenText ["a,", "]#"] "[\"a,\", \"]#\" ]".toList :=
    ⟨[⟨none, ⟨0, "\"a,\"".toList⟩⟩, ⟨none, ⟨6, "\"]#\"".toList⟩⟩], "\"a,\", \"]#\" ".toList,
      rfl, .cons (.intro .nil .positional .nil) (.last (.intro .blank .positional .blank)),
      .cons ⟨rfl, rfl⟩ (.cons ⟨rfl, rfl⟩ .nil)⟩
  have hmap : IsMap crowdedMap.text := ⟨by decide +kernel, by decide, by decide, by decide⟩
  exact .cons (.handle (by decide)) <| .cons (.preamble rfl) <|
    .cons (.target (.many (by decide) hnames)) <| .cons (.args hmap) <|
    .cons (.requirements (by decide) htexts) .nil

theorem arranged_crowded : Arranged 23 crowdedArguments crowdedSite.inner := by
  have hname : ∀ id ∈ ["preamble", "args", "requirements"], IsName id := by
    unfold IsName
    decide
  have hline : IsGap " # h, )\n ".toList :=
    .space rfl (@IsGap.comment " h, )".toList [' '] (by decide) .blank)
  have hpreamble : WrittenLabel (some "preamble") ("preamble".toList ++ [] ++ ['=']) :=
    .labelled (hname "preamble" (by decide)) .nil .nil
  have hargs : WrittenLabel (some "args") ("args".toList ++ ['\n'] ++ ['=', ' ']) :=
    .labelled (hname "args" (by decide)) (.space rfl .nil) .blank
  have hrequirements : WrittenLabel (some "requirements") ("requirements".toList ++ [] ++ ['=']) :=
    .labelled (hname "requirements" (by decide)) .nil .nil
  -- The text cut at its commas, each argument in gap, label, value and gap.
  have htext : crowdedSite.inner = " # h, )\n ".toList ++ [] ++ "R".toList ++ [' '] ++ ',' ::
      ([' '] ++ ("preamble".toList ++ [] ++ ['=']) ++ "\"(\\\",#\\né\"".toList ++ [' '] ++ ',' ::
      ([] ++ [] ++ "[\"A\", B , # ]\n ]".toList ++ [] ++ ',' ::
      ([' '] ++ ("args".toList ++ ['\n'] ++ ['=', ' ']) ++ crowdedMap.text ++ [' '] ++ ',' ::
      ([] ++ ("requirements".toList ++ [] ++ ['=']) ++ "[\"a,\", \"]#\" ]".toList ++ [] ++ ',' ::
        [' '])))) := by
    decide +kernel
  rw [htext]
  exact .cons (.intro hline .positional .blank) (.cons (.intro .blank hpreamble .blank)
    (.cons (.intro .nil .positional .nil) (.cons (.intro .blank hargs .blank)
    (.cons (.intro .nil hrequirements .nil) (.nil .blank)))))

theorem parse_crowded :
    crowded.Written crowdedSite crowdedContents crowdedArguments ∧
      parse id crowdedSite.header = .ok crowded ∧
      sliceBytes 17 133 crowdedSite.header = crowdedSite.text ∧
      sliceBytes 83 102 crowdedSite.header = crowdedMap.text := by
  have hoffsets : crowdedSite.call.start = 17 ∧ crowdedSite.call.openAt = 22 ∧
      crowdedSite.call.closeAt = 132 := by
    decide +kernel
  have hwritten : crowded.Written crowdedSite crowdedContents crowdedArguments :=
    { name := rfl
      start := hoffsets.1.symm
      stop := congrArg (· + 1) hoffsets.2.2.symm
      listed := listed_crowded
      written := written_crowded
      arranged := hoffsets.2.1 ▸ arranged_crowded }
  obtain ⟨hparse, hslice, hmap⟩ := parse_written id hwritten
  exact ⟨hwritten, hparse, hslice, hmap crowdedMap rfl⟩

end Registration

end Cookbook
