import Mathlib.Data.List.Basic
import SwiftStyle.Lint.Check
import SwiftStyle.Proofs.Lists
import SwiftStyle.Proofs.Order

/-!
# Proofs/Lint/Check — the report of a unit, rule by rule

A rule is *answered for* by two names: its own identifier decides whether it runs, under which
options and at which level, while a finding is suppressed by the rule it names itself.  `kept` and
`fault?` say what one rule adds to a report, `check_eq` puts a report together from them, and the
last section reads it as a specification.
-/

namespace SwiftStyle

/-- The finding at the level that replaces its own, if there is one. -/
def Violation.relevel (level? : Option Severity) (v : Violation) : Violation :=
  { v with severity := level?.getD v.severity }

namespace Linter

variable (c : Config) (unit : SourceUnit)

/-! ## One rule -/

/-- The findings of a rule as it gives them: none when it is switched off or gives up. -/
def emitted (rule : Rule) : List Violation :=
  if c.isEnabled rule.identifier then
    (rule.validate unit (c.settings rule.identifier)).toOption.getD []
  else []

/-- How a rule that runs gives up on a unit. -/
def fault? (rule : Rule) : Option Fault :=
  if c.isEnabled rule.identifier then
    match rule.validate unit (c.settings rule.identifier) with
    | .ok _ => none
    | .error fault => some fault
  else none

/-- The findings of a rule that count: at the level set for the rule, without those that a directive
of the unit silences at their line under the name they carry. -/
def kept (rule : Rule) : List Violation :=
  ((emitted c unit rule).map (Violation.relevel (c.severity? rule.identifier))).filter fun v =>
    !(Suppressions.collect unit).isSuppressed v.location.line v.rule

/-- A finding that counts is one that the rule gave, at its level or at the one set for the rule. -/
theorem exists_of_mem_kept {c : Config} {unit : SourceUnit} {rule : Rule} {v : Violation}
    (h : v ∈ kept c unit rule) :
    ∃ findings, rule.validate unit (c.settings rule.identifier) = .ok findings ∧
      ∃ w ∈ findings, v = w.relevel (c.severity? rule.identifier) := by
  obtain ⟨w, hw, rfl⟩ := List.mem_map.1 (List.mem_filter.1 h).1
  rw [emitted] at hw
  split at hw
  · cases hvalidate : rule.validate unit (c.settings rule.identifier) with
    | error fault => simp [hvalidate, Except.toOption] at hw
    | ok findings =>
      rw [hvalidate] at hw
      exact ⟨findings, rfl, w, hw, rfl⟩
  · simp at hw

/-- The diagnostic of a rule that gave up. -/
def faultDiagnostic (rule : Rule) (fault : Fault) : Diagnostic :=
  ⟨rule.identifier, s!"rule faulted on {displayFile unit.path}: {fault.reason}"⟩

/-- **What one rule adds to a report**: the findings that count, and a diagnostic if it gave up. -/
theorem runOne_eq (rule : Rule) :
    runOne c unit (Suppressions.collect unit) rule =
      { violations := kept c unit rule
        diagnostics := ((fault? c unit rule).map (faultDiagnostic unit rule)).toList } := by
  by_cases henabled : c.isEnabled rule.identifier
  · rw [runOne, if_pos henabled, kept, emitted, if_pos henabled, fault?, if_pos henabled, run]
    cases rule.validate unit (c.settings rule.identifier) with
    | error fault => rfl
    | ok violations =>
      have hnone : violations.map (Violation.relevel none) = violations :=
        List.map_id'' (fun _ => rfl) violations
      cases hlevel : c.severity? rule.identifier with
      | none => simp [Except.toOption, hnone]
      | some level => rfl
  · rw [runOne, if_neg henabled, kept, emitted, if_neg henabled, fault?, if_neg henabled]
    rfl

/-! ## All rules -/

/-- **A report is put together rule by rule**, in the order of registration. -/
theorem check_eq (linter : Linter) :
    linter.check unit =
      { violations := Violation.sortInFile (linter.rules.flatMap (kept linter.config unit))
        diagnostics := linter.rules.filterMap fun rule =>
          (fault? linter.config unit rule).map (faultDiagnostic unit rule) } := by
  simp only [check, List.flatMap_map, runOne_eq, List.filterMap_eq_flatMap_toList]

/-- **Units that every rule answers alike have the same report**, if directives silence the same. -/
theorem check_congr {linter : Linter} {unit unit' : SourceUnit} (hpath : unit'.path = unit.path)
    (hsuppressions : Suppressions.collect unit' = Suppressions.collect unit)
    (hrules : ∀ rule ∈ linter.rules, ∀ settings,
      rule.validate unit' settings = rule.validate unit settings) :
    linter.check unit' = linter.check unit := by
  have hreports : linter.rules.map (runOne linter.config unit' (Suppressions.collect unit'))
      = linter.rules.map (runOne linter.config unit (Suppressions.collect unit)) :=
    List.map_congr_left fun rule hrule => by
      rw [runOne, runOne, run, run, hrules rule hrule, hpath, hsuppressions]
  rw [check, check, hreports]

/-- Findings that stand in order are reported as they are. -/
theorem violations_check_eq {linter : Linter} {unit : SourceUnit} {violations : List Violation}
    (hkept : linter.rules.flatMap (kept linter.config unit) = violations)
    (hordered : violations.Pairwise fun v w => (Violation.compareInFile v w).isLE) :
    (linter.check unit).violations = violations := by
  rw [check_eq, hkept]
  exact List.mergeSort_of_pairwise hordered

/-- The diagnostics of a report name the rules that gave up, one by one. -/
theorem subjects_filterMap_fault? (rules : List Rule) :
    (rules.filterMap fun rule => (fault? c unit rule).map (faultDiagnostic unit rule)).map
        (·.subject) =
      (rules.filter fun rule => (fault? c unit rule).isSome).map Rule.identifier := by
  induction rules with
  | nil => rfl
  | cons rule rules ih =>
    cases h : fault? c unit rule with
    | none => simp [h, ih]
    | some fault => simp [h, ih, faultDiagnostic]

/-- **A report is exact.**  Its findings are the stable sort, by line, character and rule, of what
the rules that run and do not give up add in the order of registration, and nothing else; its
diagnostics are those of the rules that gave up, in the same order and one for each. -/
theorem check_exact (linter : Linter) :
    (∀ violations, violations = (linter.check unit).violations ↔
      IsStableSort Violation.compareInFile (linter.rules.flatMap (kept linter.config unit))
        violations) ∧
    (linter.check unit).violations.Pairwise (fun v w =>
      v.location.line < w.location.line ∨ v.location.line = w.location.line ∧
        (v.location.character < w.location.character ∨
          v.location.character = w.location.character ∧ v.rule ≤ w.rule)) ∧
    (linter.check unit).diagnostics = linter.rules.filterMap (fun rule =>
      (fault? linter.config unit rule).map (faultDiagnostic unit rule)) ∧
    (linter.check unit).diagnostics.map (·.subject) =
      (linter.rules.filter fun rule => (fault? linter.config unit rule).isSome).map
        Rule.identifier := by
  rw [check_eq]
  refine ⟨fun violations => eq_mergeSort_iff, ?_, rfl, subjects_filterMap_fault? _ _ _⟩
  have hsort : IsStableSort Violation.compareInFile _ _ :=
    isStableSort_mergeSort (linter.rules.flatMap (kept linter.config unit))
  exact hsort.ordered.imp Violation.isLE_compareInFile_iff.1

end Linter

end SwiftStyle
