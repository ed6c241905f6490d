import SwiftStyle.Violation

/-!
# Report — the outcome of a lint run

Findings, the number of files that were checked, and contained faults. Reports of several files are
put together with `extend` and brought into order with `sort`.
-/

namespace SwiftStyle

/-- A contained fault: a file that could not be read, or a rule that gave up on a unit. -/
structure Diagnostic where
  /-- A file path or the identifier of a rule. -/
  subject : String
  message : String
deriving DecidableEq, Repr

/-- `subject: message`. -/
def Diagnostic.text (d : Diagnostic) : String := d.subject ++ ": " ++ d.message

/-- The outcome of a lint run. -/
structure Report where
  violations : List Violation := []
  filesChecked : Nat := 0
  diagnostics : List Diagnostic := []
deriving DecidableEq, Repr

/-- How many findings there are of each level. -/
structure SeverityCounts where
  high : Nat
  medium : Nat
  low : Nat
deriving DecidableEq, Repr

namespace Report

/-- The findings of one level, in order. -/
def bySeverity (r : Report) (severity : Severity) : List Violation :=
  r.violations.filter (·.severity = severity)

/-- The number of findings of each level. -/
def counts (r : Report) : SeverityCounts where
  high := r.violations.countP (·.severity = .high)
  medium := r.violations.countP (·.severity = .medium)
  low := r.violations.countP (·.severity = .low)

/-- Whether some finding reaches the threshold. -/
def hasViolationsAt (r : Report) (threshold : Severity) : Bool :=
  r.violations.any (fun v => threshold ≤ v.severity)

/-- `n` things, with the plural ending unless there is one. -/
def quantity (n : Nat) (noun : String) : String :=
  s!"{n} {noun}" ++ if n = 1 then "" else "s"

/-- The line that closes a run. -/
def summary (r : Report) : String :=
  "Done linting! Found " ++ quantity r.violations.length "violation" ++ ", in "
    ++ quantity r.filesChecked "file" ++ "."

/-- Both reports, one after the other. -/
def extend (r other : Report) : Report where
  violations := r.violations ++ other.violations
  filesChecked := r.filesChecked + other.filesChecked
  diagnostics := r.diagnostics ++ other.diagnostics

/-- Bring the findings into their order across files. -/
def sort (r : Report) : Report :=
  { r with violations := Violation.sortAcrossFiles r.violations }

end Report

end SwiftStyle
