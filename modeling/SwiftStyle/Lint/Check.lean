import SwiftStyle.Config
import SwiftStyle.Report
import SwiftStyle.Rule
import SwiftStyle.Suppression

/-!
# Lint/Check — one unit under a list of rules

Rules run one by one. A rule that gives up becomes a diagnostic and costs nothing else; the findings
of the others are levelled, freed of the suppressed ones and brought into order.
-/

namespace SwiftStyle

/-- Rules and the configuration that they run under. -/
structure Linter where
  rules : List Rule
  config : Config := {}

/-- Findings and faults of one unit. -/
structure UnitReport where
  violations : List Violation := []
  diagnostics : List Diagnostic := []
deriving DecidableEq, Repr

namespace Linter

/-- The findings of one rule on a unit, or the diagnostic of its fault. A level set for the rule
replaces the one of each finding. -/
def run (config : Config) (unit : SourceUnit) (rule : Rule) :
    Except Diagnostic (List Violation) :=
  match rule.validate unit (config.settings rule.identifier) with
  | .error fault =>
      .error ⟨rule.identifier, s!"rule faulted on {displayFile unit.path}: {fault.reason}"⟩
  | .ok violations =>
      match config.severity? rule.identifier with
      | none => .ok violations
      | some severity => .ok (violations.map fun v => { v with severity })

/-- The report of one rule on a unit: nothing when the rule is switched off. -/
def runOne (config : Config) (unit : SourceUnit) (suppressions : Suppressions) (rule : Rule) :
    UnitReport :=
  if config.isEnabled rule.identifier then
    match run config unit rule with
    | .error diagnostic => { diagnostics := [diagnostic] }
    | .ok violations =>
        { violations :=
            violations.filter fun v => !suppressions.isSuppressed v.location.line v.rule }
  else {}

/-- **The findings and faults of a unit**, findings in their order inside one file. -/
def check (linter : Linter) (unit : SourceUnit) : UnitReport :=
  let suppressions := Suppressions.collect unit
  let reports := linter.rules.map (runOne linter.config unit suppressions)
  { violations := Violation.sortInFile (reports.flatMap (·.violations))
    diagnostics := reports.flatMap (·.diagnostics) }

end Linter

end SwiftStyle
