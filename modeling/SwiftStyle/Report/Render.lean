import SwiftStyle.Report.Json

/-!
# Report/Render — reports as text

Three formats: paragraphs with a closing summary (`text`), one line for each finding (`compact`),
and JSON. Colour is a frame of escape sequences around a word; only the first format has any.
-/

namespace SwiftStyle

/-- The formats of a report. -/
inductive ReportFormat
  | text
  | json
  | compact
deriving DecidableEq, Repr, Inhabited

/-- The format of a word. -/
def ReportFormat.ofText? : String → Option ReportFormat
  | "text" => some .text
  | "json" => some .json
  | "compact" => some .compact
  | _ => none

/-- Terminal colours. -/
inductive Colour
  | red
  | green
  | yellow
  | blue
  | magenta
deriving DecidableEq, Repr

namespace Colour

/-- The number of a colour in an escape sequence. -/
def code : Colour → String
  | red => "31"
  | green => "32"
  | yellow => "33"
  | blue => "34"
  | magenta => "35"

/-- A text between the sequences that turn a colour on and off. -/
def frame (c : Colour) (text : String) : String :=
  "\x1b[" ++ c.code ++ "m" ++ text ++ "\x1b[0m"

/-- A text in a colour, if there is to be colour. -/
def paint (coloured : Bool) (c : Colour) (text : String) : String :=
  if coloured then c.frame text else text

/-- The colour of a level. -/
def ofSeverity : Severity → Colour
  | .high => red
  | .medium => yellow
  | .low => blue

/-- The colour of a summary: that of the gravest level, green when there is no finding. -/
def ofCounts (counts : SeverityCounts) : Colour :=
  if 0 < counts.high then red
  else if 0 < counts.medium + counts.low then yellow
  else green

end Colour

namespace Report

/-- A finding as a paragraph with an empty line after it. -/
def violationText (coloured : Bool) (v : Violation) : String :=
  s!"{v.rule} at {v.location.text}\n  "
    ++ (Colour.ofSeverity v.severity).paint coloured v.severity.text ++ s!": {v.reason}\n\n"

/-- The line of a diagnostic. -/
def diagnosticText (coloured : Bool) (d : Diagnostic) : String :=
  Colour.magenta.paint coloured "skipped" ++ " " ++ d.text ++ "\n"

/-- The counts behind the summary; diagnostics are mentioned when there are any. -/
def tally (r : Report) : String :=
  let counts := r.counts
  s!"{counts.high} high, {counts.medium} medium, {counts.low} low"
    ++ if r.diagnostics.isEmpty then "" else ", " ++ quantity r.diagnostics.length "diagnostic"

/-- **A report in paragraphs.** -/
def renderText (r : Report) (coloured : Bool) : String :=
  String.join (r.violations.map (violationText coloured))
    ++ String.join (r.diagnostics.map (diagnosticText coloured))
    ++ (if r.diagnostics.isEmpty then "" else "\n")
    ++ (Colour.ofCounts r.counts).paint coloured (r.summary ++ " (" ++ r.tally ++ ")") ++ "\n"

/-- **A report as JSON.** -/
def renderJson (r : Report) : String := r.toJson.pretty ++ "\n"

/-- **A report on one line for each finding and each diagnostic.** -/
def renderCompact (r : Report) : String :=
  String.join (r.violations.map fun v => v.line ++ "\n")
    ++ String.join (r.diagnostics.map fun d => s!"{d.subject}: skipped {d.message}\n")

/-- A report in one of the formats. -/
def render (r : Report) (format : ReportFormat) (coloured : Bool) : String :=
  match format with
  | .text => r.renderText coloured
  | .json => r.renderJson
  | .compact => r.renderCompact

end Report

end SwiftStyle
