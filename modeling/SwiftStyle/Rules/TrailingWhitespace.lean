import SwiftStyle.Rule

/-!
# Rules/TrailingWhitespace — no spaces or tabs at the end of a line

Option: `ignores_empty_lines`, which skips lines made only of spaces and tabs.
-/

namespace SwiftStyle.TrailingWhitespace

/-- The description of the rule. -/
def descriptor : RuleDescriptor where
  identifier := "trailing_whitespace"
  name := "Trailing Whitespace"
  description := "Lines should not have trailing whitespace."
  nonTriggeringExamples := ["let name: String\n", "//\n", "// \u00a0comment\n"]
  triggeringExamples :=
    ["let name: String↓ \n", "/* */ let name: String↓\t\n", "let a = 1\n↓  \nlet b = 2\n"]

/-- The characters that may not end a line. -/
def isSpaceOrTab (c : Char) : Bool := c == ' ' || c == '\t'

/-- The finding on one line, at the first of its trailing characters. -/
def finding? (path : Option Path) (ignoresEmptyLines : Bool) (line : Line) : Option Violation :=
  let kept := Text.trimEndWhile isSpaceOrTab line.text
  if kept.length = line.text.length then none
  else if ignoresEmptyLines && kept.isEmpty then none
  else
    some
      { rule := descriptor.identifier
        severity := .medium
        location := { file := path, line := line.index, character := some (kept.length + 1) }
        reason := "Lines should not have trailing whitespace." }

/-- The findings of the rule: at most one on each line. -/
def findings (unit : SourceUnit) (options : Options) : List Violation :=
  unit.lines.filterMap (finding? unit.path (options.flag "ignores_empty_lines" false))

/-- The rule. -/
def rule : Rule := .ofFindings descriptor findings

end SwiftStyle.TrailingWhitespace
