import SwiftStyle.Rule

/-!
# Rules/TrailingNewline — a file ends in exactly one line ending

`\r\n`, `\n` and a lone `\r` each count as one ending. An empty file is accepted. The rule has no
options.
-/

namespace SwiftStyle.TrailingNewline

/-- The description of the rule. -/
def descriptor : RuleDescriptor where
  identifier := "trailing_newline"
  name := "Trailing Newline"
  description := "Files should have a single trailing newline."
  nonTriggeringExamples := ["let a = 0\n", "let a = 0\r\n", ""]
  triggeringExamples := ["let a = 0", "let a = 0\n\n", "let a = 0\n\n\n", "let a = 0\r\n\r\n"]

/-- The number of endings at the front of a reversed text. -/
def leadingEndings : List Char → Nat
  | '\n' :: '\r' :: rest => leadingEndings rest + 1
  | '\n' :: rest => leadingEndings rest + 1
  | '\r' :: rest => leadingEndings rest + 1
  | _ => 0

/-- **The number of line endings that a text ends in**, counted from the end. -/
def trailingEndings (contents : List Char) : Nat := leadingEndings contents.reverse

/-- The findings of the rule: at most one, on the line after the last. -/
def findings (unit : SourceUnit) (_ : Options) : List Violation :=
  let contents := unit.contents.toList
  if contents.isEmpty || trailingEndings contents == 1 then []
  else
    [{ rule := descriptor.identifier
       severity := .medium
       location := { file := unit.path, line := unit.lines.length + 1 }
       reason := "File should have a single trailing newline." }]

/-- The rule. -/
def rule : Rule := .ofFindings descriptor findings

end SwiftStyle.TrailingNewline
