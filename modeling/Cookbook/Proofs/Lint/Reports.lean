import Cookbook.Lint

/-!
# The reports of one check

The reports on a registry come check by check, and each of them names its check. So what one check
reports can be told from the reports of all.

## Main results

* `filter_lint`: the reports that name a check are the ones that the check makes.
* `filter_lint_eq_nil`: silence of a check in terms of its reports.
-/

namespace Cookbook.Lint

/-- What a check reports on a registry. -/
def reports (config : Config) (registry : Registry) : Check → List Diagnostic
  | .ruleWellFormed => ruleWellFormed registry
  | .getWithoutCapture => getWithoutCapture registry
  | .captureTypeConflict => captureTypeConflict registry
  | .getTypeMismatch => getTypeMismatch registry
  | .sameDialectCandidates => sameDialectCandidates registry
  | .unknownAncestor => unknownAncestor config registry
  | .emptyEntrypoint => emptyEntrypoint registry

variable {config : Config} {registry : Registry} {check : Check} {report : Diagnostic}

theorem check_of_mem_ruleWellFormed (h : report ∈ ruleWellFormed registry) :
    report.check = .ruleWellFormed := by
  obtain ⟨recipe, -, h⟩ := List.mem_flatMap.mp h
  obtain ⟨rule, -, h⟩ := List.mem_flatMap.mp h
  obtain ⟨problem, -, rfl⟩ := List.mem_map.mp h
  rfl

theorem check_of_mem_getWithoutCapture (h : report ∈ getWithoutCapture registry) :
    report.check = .getWithoutCapture := by
  obtain ⟨recipe, -, h⟩ := List.mem_flatMap.mp h
  obtain ⟨key, -, rfl⟩ := List.mem_map.mp h
  rfl

theorem check_of_mem_captureTypeConflict {report : Diagnostic}
    (h : report ∈ captureTypeConflict registry) : report.check = .captureTypeConflict := by
  obtain ⟨k, -, hreport⟩ := List.mem_filterMap.mp h
  dsimp only at hreport
  split at hreport
  · cases hreport
  · cases hreport
    rfl

theorem check_of_mem_getTypeMismatch {report : Diagnostic}
    (h : report ∈ getTypeMismatch registry) : report.check = .getTypeMismatch := by
  obtain ⟨recipe, -, h⟩ := List.mem_flatMap.mp h
  obtain ⟨e, -, hreport⟩ := List.mem_filterMap.mp h
  split at hreport
  · split at hreport
    · cases hreport
    · split at hreport
      · cases hreport
      · cases hreport
        rfl
  · cases hreport

theorem check_of_mem_sameDialectCandidates (h : report ∈ sameDialectCandidates registry) :
    report.check = .sameDialectCandidates := by
  obtain ⟨⟨constraint, candidates⟩, -, h⟩ := List.mem_flatMap.mp h
  obtain ⟨dialect, -, h⟩ := List.mem_filterMap.mp h
  dsimp only at h
  split at h
  · cases h
  · cases h
    rfl

theorem check_of_mem_unknownAncestor (h : report ∈ unknownAncestor config registry) :
    report.check = .unknownAncestor := by
  unfold unknownAncestor at h
  split at h
  · cases h
  · obtain ⟨recipe, -, h⟩ := List.mem_flatMap.mp h
    obtain ⟨rule, -, h⟩ := List.mem_flatMap.mp h
    obtain ⟨name, -, rfl⟩ := List.mem_map.mp h
    rfl

theorem check_of_mem_emptyEntrypoint (h : report ∈ emptyEntrypoint registry) :
    report.check = .emptyEntrypoint := by
  obtain ⟨recipe, -, rfl⟩ := List.mem_map.mp h
  rfl

/-- Every report names the check that makes it. -/
theorem check_of_mem_reports (h : report ∈ reports config registry check) :
    report.check = check := by
  cases check with
  | ruleWellFormed => exact check_of_mem_ruleWellFormed h
  | getWithoutCapture => exact check_of_mem_getWithoutCapture h
  | captureTypeConflict => exact check_of_mem_captureTypeConflict h
  | getTypeMismatch => exact check_of_mem_getTypeMismatch h
  | sameDialectCandidates => exact check_of_mem_sameDialectCandidates h
  | unknownAncestor => exact check_of_mem_unknownAncestor h
  | emptyEntrypoint => exact check_of_mem_emptyEntrypoint h

theorem filter_reports (check other : Check) :
    ((reports config registry other).filter fun report => report.check = check) =
      if other = check then reports config registry other else [] := by
  split
  · next heq =>
    refine List.filter_eq_self.mpr fun report hreport => ?_
    simp [check_of_mem_reports hreport, heq]
  · next hne =>
    refine List.filter_eq_nil_iff.mpr fun report hreport => ?_
    simp [check_of_mem_reports hreport, hne]

/-- The reports that name a check are the ones that the check makes. -/
theorem filter_lint (config : Config) (registry : Registry) (check : Check) :
    ((registry.lint config).filter fun report => report.check = check) =
      reports config registry check := by
  have hlint : registry.lint config =
      [Check.ruleWellFormed, .getWithoutCapture, .captureTypeConflict, .getTypeMismatch,
        .sameDialectCandidates, .unknownAncestor, .emptyEntrypoint].flatMap
          (reports config registry) := by
    simp [Registry.lint, reports]
  rw [hlint, List.filter_flatMap]
  simp only [filter_reports]
  cases check <;> simp

/-- If no report names a check there are none of it. -/
theorem filter_lint_eq_nil (h : ∀ report ∈ registry.lint config, report.check ≠ check) :
    ((registry.lint config).filter fun report => report.check = check) = [] := by
  rw [List.filter_eq_nil_iff]
  intro report hreport
  simpa using h report hreport

end Cookbook.Lint
