import Cookbook.Proofs.Except
import Cookbook.Proofs.Lint.Slots

/-!
# What the checks of types report

One check reports keys that are captured at several types, the other one reads of captured keys at a
type that no capture has. The captures that both go by are those of the first recipe of each
artifact. For these their reports are exact: there is one report for each key and each read at
fault, in order, and no other. For all captures of a registry they are exact unless a capture that
is overlooked makes a difference; none does if the recipes of one artifact capture alike. Silence
then makes a registry consistent.

## Main definitions

* `Conflicting`, `Misread`: the faults of keys and of reads.
* `Registry.TypesReported`: the reports are exact for given captures.
* `Registry.Consistent`: each key is captured at one type only, and read at no other.

## Main results

* `typesReported_shows`: the reports are exact for the captures of first recipes.
* `consistent_of_silent`: what holds of a registry on which the two checks report nothing.
* `typesReported_iff`: when the reports are exact for all captures.
* `typesUnreported_overlooked`: a registry for which they are not.
-/

namespace Cookbook

open Lint

/-- A read of the context by a recipe. -/
structure Read where
  recipe : Recipe
  key : String
  tag : TypeTag

/-- Every read of every recipe, in the order in which binding meets them. -/
def Registry.reads (registry : Registry) : List Read :=
  registry.recipes.flatMap fun recipe =>
    recipe.expressions.filterMap fun
      | .get key tag => some ⟨recipe, key, tag⟩
      | _ => none

namespace Lint

section Faults

variable (captured : String → TypeTag → Prop)

/-- A key is captured at two different types. -/
def Conflicting (key : String) : Prop :=
  ∃ tag other, captured key tag ∧ captured key other ∧ tag ≠ other

/-- A read is at a type at which its key is not captured, although it is captured. -/
def Misread (read : Read) : Prop :=
  (∃ tag, captured read.key tag) ∧ ¬ captured read.key read.tag

end Faults

/-- A report is about a key that is captured at several types. -/
def ReportsConflict (key : String) (report : Diagnostic) : Prop :=
  ∃ tags : List TypeTag,
    report = ⟨.captureTypeConflict, .warning,
      "Context key '" ++ key ++ "' is captured as " ++ " and ".intercalate (tags.map TypeTag.name),
      none, none, some ("Capture '" ++ key ++ "' with a single type everywhere")⟩

/-- A report is about a read at a type that no capture has. -/
def ReportsMisread (read : Read) (report : Diagnostic) : Prop :=
  ∃ tag : TypeTag,
    report = .about read.recipe .getTypeMismatch .warning
      ("Context key '" ++ read.key ++ "' is read as " ++ read.tag.name ++
        " but only captured as " ++ tag.name)
      (some ("Read '" ++ read.key ++ "' as " ++ tag.name))

end Lint

open Classical in
/-- The reports of the two checks of types are exact for given captures. -/
structure Registry.TypesReported (registry : Registry) (config : Config)
    (captured : String → TypeTag → Prop) : Prop where
  /-- There is one report for each key that is captured at two types, and no other. -/
  conflicts : ∃ keys : List String, keys.Nodup ∧ (∀ key, key ∈ keys ↔ Conflicting captured key) ∧
    List.Forall₂ ReportsConflict keys
      ((registry.lint config).filter fun report => report.check = .captureTypeConflict)
  /-- There is one report for each read of a captured key at a type that no capture has, in order,
  and no other. -/
  misreads : List.Forall₂ ReportsMisread (registry.reads.filter fun read => Misread captured read)
    ((registry.lint config).filter fun report => report.check = .getTypeMismatch)

/-- Every key has at most one type, at which it is captured and read. -/
structure Registry.Consistent (registry : Registry) : Prop where
  written : ∀ key tag other, registry.Writes key tag → registry.Writes key other → tag = other
  read : ∀ recipe ∈ registry.recipes, ∀ key tag, Expression.get key tag ∈ recipe.expressions →
    ∀ other, registry.Writes key other → tag = other

namespace Lint

variable {registry : Registry} {config : Config} {key : String}

/-! ## Lists -/

/-- What is kept and changed on the way belongs to what is kept, item by item. -/
theorem forall₂_filterMap {α β : Type} {R : α → β → Prop} {p : α → Prop} [DecidablePred p]
    {f : α → Option β} {items : List α} (hkept : ∀ a ∈ items, p a → ∃ b, f a = some b ∧ R a b)
    (hleft : ∀ a ∈ items, ¬ p a → f a = none) :
    List.Forall₂ R (items.filter p) (items.filterMap f) := by
  induction items with
  | nil => exact .nil
  | cons a items ih =>
    rw [List.forall_mem_cons] at hkept hleft
    have hrest := ih hkept.2 hleft.2
    by_cases ha : p a
    · obtain ⟨b, hb, hR⟩ := hkept.1 ha
      rw [List.filter_cons_of_pos (by simpa using ha), List.filterMap_cons_some hb]
      exact .cons hR hrest
    · rw [List.filter_cons_of_neg (by simpa using ha), List.filterMap_cons_none (hleft.1 ha)]
      exact hrest

/-- Members of a list without two different items are equal. -/
theorem eq_of_length_eraseDups_le {tags : List TypeTag} (h : tags.eraseDups.length ≤ 1)
    {a b : TypeTag} (ha : a ∈ tags) (hb : b ∈ tags) : a = b := by
  have ha : a ∈ tags.eraseDups := List.mem_eraseDups.mpr ha
  have hb : b ∈ tags.eraseDups := List.mem_eraseDups.mpr hb
  match htags : tags.eraseDups with
  | [] => simp [htags] at ha
  | [c] =>
    rw [htags, List.mem_singleton] at ha hb
    exact ha.trans hb.symm
  | c :: d :: more =>
    rw [htags] at h
    simp at h

theorem nodup_eraseDups {α : Type} [DecidableEq α] : (items : List α) → items.eraseDups.Nodup
  | [] => by simp
  | first :: items => by
    rw [List.eraseDups_cons, List.nodup_cons]
    -- The first item is taken out of the rest, so the recursion is on a shorter list.
    exact ⟨by simp, nodup_eraseDups (items.filter fun item => !item == first)⟩
termination_by items => items.length
decreasing_by exact Nat.lt_succ_of_le (List.length_filter_le _ _)

/-! ## Conflicts -/

/-- The check of conflicts counts the types of a key. -/
theorem one_lt_length_iff :
    1 < (tagsOf key (allCaptures registry)).eraseDups.length ↔ Conflicting registry.Shows key := by
  have hshows : ∀ tag ∈ (tagsOf key (allCaptures registry)).eraseDups, registry.Shows key tag :=
    fun tag htag => mem_allCaptures_iff.mp (mem_tagsOf_iff.mp (List.mem_eraseDups.mp htag))
  constructor
  · intro h
    match htags : (tagsOf key (allCaptures registry)).eraseDups with
    | [] | [_] => simp [htags] at h
    | tag :: other :: more =>
      have hnodup := nodup_eraseDups (tagsOf key (allCaptures registry))
      rw [htags] at hshows hnodup
      refine ⟨tag, other, hshows tag (by simp), hshows other (by simp), ?_⟩
      rintro rfl
      simp at hnodup
  · rintro ⟨tag, other, htag, hother, hne⟩
    by_contra hle
    refine hne (eq_of_length_eraseDups_le (Nat.le_of_not_lt hle) ?_ ?_)
    · exact mem_tagsOf_iff.mpr (mem_allCaptures_iff.mpr htag)
    · exact mem_tagsOf_iff.mpr (mem_allCaptures_iff.mpr hother)

/-- The reported keys, in the order in which they are first captured. -/
def conflictingKeys (registry : Registry) : List String :=
  ((allCaptures registry).map Prod.fst).eraseDups.filter fun key =>
    1 < (tagsOf key (allCaptures registry)).eraseDups.length

theorem mem_conflictingKeys_iff :
    key ∈ conflictingKeys registry ↔ Conflicting registry.Shows key := by
  rw [conflictingKeys, List.mem_filter, decide_eq_true_iff, one_lt_length_iff, List.mem_eraseDups,
    List.mem_map]
  refine ⟨And.right, fun h => ⟨?_, h⟩⟩
  obtain ⟨tag, -, htag, -⟩ := h
  exact ⟨(key, tag), mem_allCaptures_iff.mpr htag, rfl⟩

theorem forall₂_captureTypeConflict (registry : Registry) :
    List.Forall₂ ReportsConflict (conflictingKeys registry) (captureTypeConflict registry) := by
  refine forall₂_filterMap (fun key _ hkey => ?_) fun key _ hkey => ?_
  · exact ⟨_, if_neg (Nat.not_le_of_lt hkey), _, rfl⟩
  · exact if_pos (Nat.le_of_not_lt hkey)

/-! ## Reads -/

/-- What the check of reads reports on one read. -/
def misreadReport? (captured : List (String × TypeTag)) (read : Read) : Option Diagnostic :=
  match tagsOf read.key captured with
  | [] => none
  | first :: others =>
    if read.tag ∈ first :: others then none
    else
      some (.about read.recipe .getTypeMismatch .warning
        ("Context key '" ++ read.key ++ "' is read as " ++ read.tag.name ++
          " but only captured as " ++ first.name)
        (some ("Read '" ++ read.key ++ "' as " ++ first.name)))

/-- The check of reads goes through all reads of a registry. -/
theorem getTypeMismatch_eq (registry : Registry) :
    getTypeMismatch registry =
      registry.reads.filterMap (misreadReport? (allCaptures registry)) := by
  rw [Registry.reads, List.filterMap_flatMap]
  refine List.flatMap_congr fun recipe _ => ?_
  rw [List.filterMap_filterMap]
  refine List.filterMap_congr fun expression _ => ?_
  cases expression <;> rfl

theorem misreadReport?_of_misread {read : Read} (h : Misread registry.Shows read) :
    ∃ report, misreadReport? (allCaptures registry) read = some report ∧
      ReportsMisread read report := by
  obtain ⟨⟨tag, htag⟩, hnot⟩ := h
  rw [← mem_allCaptures_iff, ← mem_tagsOf_iff] at htag hnot
  cases htags : tagsOf read.key (allCaptures registry) with
  | nil => simp [htags] at htag
  | cons first others =>
    rw [htags] at hnot
    refine ⟨_, ?_, first, rfl⟩
    simp only [misreadReport?, htags, if_neg hnot]

theorem misreadReport?_eq_none {read : Read} (h : ¬ Misread registry.Shows read) :
    misreadReport? (allCaptures registry) read = none := by
  cases htags : tagsOf read.key (allCaptures registry) with
  | nil => simp only [misreadReport?, htags]
  | cons first others =>
    have hfirst : registry.Shows read.key first := by
      rw [← mem_allCaptures_iff, ← mem_tagsOf_iff, htags]
      exact List.mem_cons_self
    -- The key is captured, so it must be at the type of the read.
    have hread : registry.Shows read.key read.tag := by
      by_contra hnot
      exact h ⟨⟨first, hfirst⟩, hnot⟩
    rw [← mem_allCaptures_iff, ← mem_tagsOf_iff, htags] at hread
    simp only [misreadReport?, htags, if_pos hread]

/-! ## Exactness -/

/-- The reports are exact for the captures of the first recipe of each artifact. -/
theorem typesReported_shows (registry : Registry) (config : Config) :
    registry.TypesReported config registry.Shows where
  conflicts := by
    rw [filter_lint]
    exact ⟨conflictingKeys registry, (nodup_eraseDups _).filter _, fun _ => mem_conflictingKeys_iff,
      forall₂_captureTypeConflict registry⟩
  misreads := by
    classical
    rw [filter_lint, reports, getTypeMismatch_eq]
    exact forall₂_filterMap (fun _ _ => misreadReport?_of_misread)
      fun _ _ => misreadReport?_eq_none

/-! ## Silence -/

/-- Without a report of it there is no conflict. -/
theorem not_conflicting_of_silent
    (h : ∀ report ∈ registry.lint config, report.check ≠ .captureTypeConflict) :
    ¬ Conflicting registry.Shows key := by
  obtain ⟨keys, -, hkeys, hreports⟩ := (typesReported_shows registry config).conflicts
  rw [filter_lint_eq_nil h, List.forall₂_nil_right_iff] at hreports
  rw [← hkeys, hreports]
  exact List.not_mem_nil

/-- Without a report of it no read is at fault. -/
theorem not_misread_of_silent {read : Read}
    (h : ∀ report ∈ registry.lint config, report.check ≠ .getTypeMismatch)
    (hread : read ∈ registry.reads) : ¬ Misread registry.Shows read := by
  have hreports := (typesReported_shows registry config).misreads
  rw [filter_lint_eq_nil h, List.forall₂_nil_right_iff, List.filter_eq_nil_iff] at hreports
  simpa using hreports read hread

/-- A registry on which the two checks of types report nothing is consistent. -/
theorem consistent_of_silent (hshares : registry.SharesRules)
    (hsilent : ∀ report ∈ registry.lint config,
      report.check ≠ .captureTypeConflict ∧ report.check ≠ .getTypeMismatch) :
    registry.Consistent := by
  have hshows : ∀ key tag, registry.Writes key tag → registry.Shows key tag :=
    fun key tag => (shows_iff_writes hshares.sharesCaptures).mpr
  have hsame : ∀ key tag other, registry.Shows key tag → registry.Shows key other →
      tag = other := by
    intro key tag other htag hother
    by_contra hne
    exact not_conflicting_of_silent (fun report h => (hsilent report h).1)
      ⟨tag, other, htag, hother, hne⟩
  constructor
  · intro key tag other htag hother
    exact hsame key tag other (hshows key tag htag) (hshows key other hother)
  · intro recipe hrecipe key tag hread other hother
    have hother := hshows key other hother
    have hmem : (⟨recipe, key, tag⟩ : Read) ∈ registry.reads :=
      List.mem_flatMap.mpr ⟨recipe, hrecipe, List.mem_filterMap.mpr ⟨_, hread, rfl⟩⟩
    -- The key is captured, so a read at another type would be reported.
    have htag : registry.Shows key tag := by
      by_contra hnot
      exact not_misread_of_silent (fun report h => (hsilent report h).2) hmem ⟨⟨other, hother⟩, hnot⟩
    exact hsame key tag other htag hother

/-! ## What reports are about -/

/-- The name of a type cannot be mistaken at the end of a text. -/
theorem eq_of_append_name {front back : String} {tag other : TypeTag}
    (h : front ++ tag.name = back ++ other.name) : front = back ∧ tag = other := by
  -- The names end in different letters.
  have hlast : (front ++ tag.name).toList.getLast? = (back ++ other.name).toList.getLast? := by
    rw [h]
  obtain rfl : tag = other := by
    revert hlast
    cases tag <;> cases other <;> simp [TypeTag.name]
  exact ⟨(String.append_left_inj _).mp h, rfl⟩

/-- A report of a conflict is about one key. -/
theorem ReportsConflict.unique {other : String} {report : Diagnostic}
    (h : ReportsConflict key report) (hother : ReportsConflict other report) : key = other := by
  obtain ⟨_, rfl⟩ := h
  obtain ⟨_, heq⟩ := hother
  have hfix := Option.some.inj (Diagnostic.mk.inj heq).2.2.2.2.2
  simpa only [String.append_left_inj, String.append_right_inj] using hfix

/-- A report of a read is about one key and one type. -/
theorem ReportsMisread.unique {read other : Read} {report : Diagnostic}
    (h : ReportsMisread read report) (hother : ReportsMisread other report) :
    read.key = other.key ∧ read.tag = other.tag := by
  obtain ⟨first, rfl⟩ := h
  obtain ⟨first', heq⟩ := hother
  obtain ⟨-, -, hmessage, -, -, hfix⟩ := Diagnostic.mk.inj heq
  obtain ⟨hkey, rfl⟩ := eq_of_append_name (Option.some.inj hfix)
  have hkey : read.key = other.key := by
    simpa only [String.append_left_inj, String.append_right_inj] using hkey
  obtain ⟨hmessage, -⟩ := eq_of_append_name hmessage
  rw [String.append_left_inj, hkey] at hmessage
  exact ⟨hkey, (eq_of_append_name hmessage).2⟩

/-! ## Other captures -/

section Captures

variable {captured others : String → TypeTag → Prop}

theorem Conflicting.mono (himp : ∀ key tag, captured key tag → others key tag)
    (h : Conflicting captured key) : Conflicting others key := by
  obtain ⟨tag, other, htag, hother, hne⟩ := h
  exact ⟨tag, other, himp key tag htag, himp key other hother, hne⟩

/-- Reports that are exact for two kinds of captures find the same keys at fault. -/
theorem conflicting_of_typesReported (h : registry.TypesReported config captured)
    (hothers : registry.TypesReported config others) (hkey : Conflicting captured key) :
    Conflicting others key := by
  obtain ⟨keys, -, hkeys, hreports⟩ := h.conflicts
  obtain ⟨keys', -, hkeys', hreports'⟩ := hothers.conflicts
  have hsame : keys = keys' :=
    List.left_unique_forall₂' (fun _ _ _ hone hother => hone.unique hother) hreports hreports'
  exact (hkeys' key).mp (hsame ▸ (hkeys key).mpr hkey)

/-- They find the same reads at fault. -/
theorem misread_of_typesReported (h : registry.TypesReported config captured)
    (hothers : registry.TypesReported config others) {read : Read} (hread : read ∈ registry.reads)
    (hmisread : Misread captured read) : Misread others read := by
  classical
  have hmem : read ∈ registry.reads.filter fun read => Misread captured read :=
    List.mem_filter.mpr ⟨hread, by simpa using hmisread⟩
  obtain ⟨report, hreport, habout⟩ := exists_mem_of_forall₂ (List.Forall₂.flip h.misreads) _ hmem
  obtain ⟨other, hother, habout'⟩ := exists_mem_of_forall₂ hothers.misreads report hreport
  -- The report is about both reads, so they are of one key and one type.
  obtain ⟨hkey, htag⟩ := ReportsMisread.unique habout habout'
  have hmisread' : Misread others other := by simpa using (List.mem_filter.mp hother).2
  rw [Misread, hkey, htag]
  exact hmisread'

/-- Reports are exact for any captures that have the same keys and reads at fault. -/
theorem typesReported_of_same (h : registry.TypesReported config captured)
    (hkeys : ∀ key, Conflicting captured key ↔ Conflicting others key)
    (hreads : ∀ read ∈ registry.reads, Misread captured read ↔ Misread others read) :
    registry.TypesReported config others where
  conflicts := by
    obtain ⟨keys, hnodup, hmem, hreports⟩ := h.conflicts
    exact ⟨keys, hnodup, fun key => (hmem key).trans (hkeys key), hreports⟩
  misreads := by
    have hfilter := h.misreads
    rwa [List.filter_congr fun read hread => decide_eq_decide.mpr (hreads read hread)] at hfilter

end Captures

/-- The two checks of types report exactly the keys and the reads that are at fault by the captures
of the first recipe of each artifact. For all captures of the registry their reports are exact if
and only if the others make no key and no read faulty or faultless; so they are if the recipes of
one artifact capture alike. -/
theorem typesReported_iff (registry : Registry) (config : Config) :
    registry.TypesReported config registry.Shows ∧
    (registry.TypesReported config registry.Writes ↔
      (∀ key, Conflicting registry.Writes key → Conflicting registry.Shows key) ∧
      ∀ read ∈ registry.reads, Misread registry.Writes read ↔ Misread registry.Shows read) ∧
    (registry.SharesCaptures → registry.TypesReported config registry.Writes) := by
  have hshows := typesReported_shows registry config
  -- The reports are exact for what the registry shows. So they are exact for what it writes if and
  -- only if both give the same disputes; and if artifacts share their captures, both are the same.
  refine ⟨hshows, ⟨fun hwrites => ⟨?_, ?_⟩, ?_⟩, fun hshares => ?_⟩
  · intro key hkey
    exact conflicting_of_typesReported hwrites hshows hkey
  · intro read hread
    exact ⟨misread_of_typesReported hwrites hshows hread,
      misread_of_typesReported hshows hwrites hread⟩
  · rintro ⟨hkeys, hreads⟩
    refine typesReported_of_same hshows (fun key => ⟨?_, hkeys key⟩) fun read hread =>
      (hreads read hread).symm
    exact Conflicting.mono fun _ _ => writes_of_shows
  · have hsame : registry.Shows = registry.Writes :=
      funext fun key => funext fun tag => propext (shows_iff_writes hshares)
    exact hsame ▸ hshows

/-- A query with one argument. -/
def rowsQuery (constraint source : String) (rows : Expression) : Recipe :=
  { constraint, entrypoint := "", dialect := .query, preamble := "", body := "SELECT 1",
    rules := [⟨"rows", ["table", "context"], rows⟩], requirements := [], source }

/-- Two artifacts that capture `rows` at different types, the first one in two recipes, and one that
reads it at a third type. -/
def disputed : Registry :=
  .registerRecipes .empty
    [rowsQuery "Count" "count.sql" (.capture "rows" (.field "table" ["rows"]) .int),
      rowsQuery "Recount" "count.sql" (.capture "rows" (.field "table" ["count"]) .int),
      rowsQuery "Label" "label.sql" (.capture "rows" (.field "table" ["name"]) .string),
      rowsQuery "Limit" "limit.sql" (.get "rows" .bool)]

theorem typesReported_disputed :
    disputed.SharesCaptures ∧ disputed.TypesReported ⟨none⟩ disputed.Writes ∧
    Conflicting disputed.Writes "rows" ∧
    ∃ read ∈ disputed.reads, Misread disputed.Writes read := by
  have hint : disputed.Writes "rows" .int := ⟨_, .head _, _, .tail _ (.head _)⟩
  have hstring : disputed.Writes "rows" .string :=
    ⟨_, .tail _ (.tail _ (.head _)), _, .tail _ (.head _)⟩
  have hcaptures : ∀ recipe ∈ disputed.recipes, ∀ other ∈ disputed.recipes,
      recipe.source = other.source → ∀ capture ∈ captures recipe, capture ∈ captures other := by
    decide
  have hshares : disputed.SharesCaptures := fun recipe hrecipe other hother hsource _ _ value h =>
    mem_captures_iff.mp
      (hcaptures recipe hrecipe other hother hsource _ (mem_captures_iff.mpr ⟨value, h⟩))
  have hnone : ∀ recipe ∈ disputed.recipes, ("rows", TypeTag.bool) ∉ captures recipe := by decide
  have hbool : ¬ disputed.Writes "rows" .bool := fun ⟨recipe, hrecipe, hvalue⟩ =>
    hnone recipe hrecipe (mem_captures_iff.mpr hvalue)
  exact ⟨hshares, (typesReported_iff disputed ⟨none⟩).2.2 hshares,
    ⟨.int, .string, hint, hstring, by decide⟩, _, .head _, ⟨.int, hint⟩, hbool⟩

/-- Two recipes of one artifact that capture `rows` at different types, and one that reads it as the
second of them does. -/
def overlooked : Registry :=
  .registerRecipes .empty
    [rowsQuery "Label" "host" (.capture "rows" (.field "table" ["name"]) .string),
      rowsQuery "Count" "host" (.capture "rows" (.field "table" ["rows"]) .int),
      rowsQuery "Limit" "limit.sql" (.get "rows" .int)]

/-- The conflict is not reported, and the read is, although it is faultless. -/
theorem typesUnreported_overlooked :
    (Conflicting overlooked.Writes "rows" ∧
      ∀ report ∈ overlooked.lint ⟨none⟩, report.check ≠ .captureTypeConflict) ∧
    ((∀ read ∈ overlooked.reads, overlooked.Writes read.key read.tag) ∧
      ∃ report ∈ overlooked.lint ⟨none⟩, report.check = .getTypeMismatch) ∧
    ¬ overlooked.TypesReported ⟨none⟩ overlooked.Writes := by
  have hstring : overlooked.Writes "rows" .string := ⟨_, .head _, _, .tail _ (.head _)⟩
  have hint : overlooked.Writes "rows" .int := ⟨_, .tail _ (.head _), _, .tail _ (.head _)⟩
  have hconflict : Conflicting overlooked.Writes "rows" :=
    ⟨.string, .int, hstring, hint, by decide⟩
  have hsilent : ∀ report ∈ overlooked.lint ⟨none⟩, report.check ≠ .captureTypeConflict := by
    decide
  refine ⟨⟨hconflict, hsilent⟩, ⟨?_, by decide⟩, fun htypes => ?_⟩
  · intro read hread
    obtain rfl := List.mem_singleton.mp hread
    exact hint
  · obtain ⟨keys, -, hkeys, hreports⟩ := htypes.conflicts
    -- There is no report, so there would have to be no key.
    rw [filter_lint_eq_nil hsilent, List.forall₂_nil_right_iff] at hreports
    subst hreports
    exact List.not_mem_nil ((hkeys "rows").mpr hconflict)

end Lint

end Cookbook
