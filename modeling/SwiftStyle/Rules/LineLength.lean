import SwiftStyle.Rule
import SwiftStyle.Text.Search

/-!
# Rules/LineLength — how many characters a line may have

Options: `warning` (120), `error` (200), `ignores_comments`, which skips lines that are only a `//`
comment, and `ignores_urls`, which measures lines with their links cut out (`withoutUrls`).
-/

namespace SwiftStyle.LineLength

/-- The description of the rule. -/
def descriptor : RuleDescriptor where
  identifier := "line_length"
  name := "Line Length"
  description := "Lines should not span too many characters."
  nonTriggeringExamples :=
    ["let x = \"" ++ "".pushn 'a' 110 ++ "\"\n", "let short = 1\n"]
  triggeringExamples :=
    ["↓let x = \"" ++ "".pushn 'a' 111 ++ "\"\n",
      "let a = 1\n↓let x = \"" ++ "".pushn 'b' 191 ++ "\"\n"]

/-- Whether a link begins here. -/
def startsUrl (text : List Char) : Bool :=
  (Text.dropLead? "http://".toList text).isSome || (Text.dropLead? "https://".toList text).isSome

/-- The text without its links, where a link reaches from `http://` or `https://` to the next white
space. `inside` tells whether a link has begun. -/
def cutUrls : Bool → List Char → List Char
  | _, [] => []
  | inside, c :: rest =>
      if inside && !Text.isBlank c then cutUrls true rest
      else if startsUrl (c :: rest) then cutUrls true rest
      else c :: cutUrls false rest

/-- **The text without its links.** -/
def withoutUrls (text : List Char) : List Char := cutUrls false text

/-- Lines that are only a `//` comment. -/
def isComment (line : Line) : Bool :=
  (Text.dropLead? "//".toList (Text.trimStart line.text)).isSome

/-- The number of characters that count. -/
def measure (line : Line) (ignoresUrls : Bool) : Nat :=
  if ignoresUrls then (withoutUrls line.text).length else line.text.length

/-- The finding on one line. -/
def finding? (path : Option Path) (options : Options) (line : Line) : Option Violation :=
  if options.flag "ignores_comments" false && isComment line then none
  else
    let length := measure line (options.flag "ignores_urls" false)
    ((Thresholds.ofOptions options ⟨120, 200⟩).exceeded? length).map fun (severity, limit) =>
      { rule := descriptor.identifier
        severity
        location := { file := path, line := line.index }
        reason := s!"Line should be {limit} characters or less: currently {length} characters" }

/-- The findings of the rule: at most one on each line. -/
def findings (unit : SourceUnit) (options : Options) : List Violation :=
  unit.lines.filterMap (finding? unit.path options)

/-- The rule. -/
def rule : Rule := .ofFindings descriptor findings

end SwiftStyle.LineLength
