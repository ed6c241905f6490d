import SwiftStyle.Rule
import SwiftStyle.Text.Search

/-!
# Rules/FileLength — how many lines a file may have

Options: `warning` (400), `error` (1000), and `ignore_comment_only_lines`, which leaves out blank
lines and lines that hold only a `//` comment.
-/

namespace SwiftStyle.FileLength

/-- The description of the rule. -/
def descriptor : RuleDescriptor where
  identifier := "file_length"
  name := "File Length"
  description := "Files should not span too many lines."
  nonTriggeringExamples := ["print(\"tidemark\")\n"]

/-- Lines that hold something besides white space and a `//` comment. -/
def holdsCode (line : Line) : Bool :=
  let text := Text.trim line.text
  !text.isEmpty && (Text.dropLead? "//".toList text).isNone

/-- The number of lines that count. -/
def measure (lines : List Line) (ignoresComments : Bool) : Nat :=
  if ignoresComments then lines.countP holdsCode else lines.length

/-- The findings of the rule: at most one, on the last line. -/
def findings (unit : SourceUnit) (options : Options) : List Violation :=
  let thresholds := Thresholds.ofOptions options ⟨400, 1000⟩
  let lines := unit.lines
  let count := measure lines (options.flag "ignore_comment_only_lines" false)
  match thresholds.exceeded? count with
  | none => []
  | some (severity, limit) =>
      [{ rule := descriptor.identifier
         severity
         location := { file := unit.path, line := lines.length }
         reason := s!"File should contain {limit} lines or less: currently contains {count}" }]

/-- The rule. -/
def rule : Rule := .ofFindings descriptor findings

end SwiftStyle.FileLength
