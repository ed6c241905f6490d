import SwiftStyle.Json.Parser
import SwiftStyle.Json.Printer
import SwiftStyle.Report

/-!
# Report/Json — reports as JSON

`toJson` writes records as objects, with the fields in the order of their declaration and without
the diagnostics when there are none. `ofJson?` reads what `toJson` writes; it also takes an array of
the field values in that order for an object, passes over unknown fields, and refuses a field that
stands twice.
-/

namespace SwiftStyle

/-- What a record is read from: an object, or an array with its values in the order of the
fields. -/
structure Json.Record where
  /-- The values by field name. -/
  values : List (String × Json)

namespace Json.Record

/-- The record with the given field names; the last `optional` of them may be missing in an
array, and none may stand twice in an object. -/
def ofJson? (names : List String) (optional : Nat) : Json → Option Record
  | .object fields =>
      if names.all fun name => (fields.map (·.1)).count name ≤ 1 then some ⟨fields⟩ else none
  | .array items =>
      if items.length ≤ names.length && names.length ≤ items.length + optional then
        some ⟨names.zip items⟩
      else none
  | _ => none

/-- The value of a field, if it is there. -/
def get? (r : Record) (name : String) : Option Json := (r.values.find? (·.1 == name)).map (·.2)

/-- A field that may be missing or `null`. -/
def optional? {α : Type} (r : Record) (name : String) (read : Json → Option α) :
    Option (Option α) :=
  match r.get? name with
  | none | some .null => some none
  | some value => (read value).map some

end Json.Record

/-! ## Findings -/

namespace Severity

/-- A level as a string. -/
def toJson (s : Severity) : Json := .string s.text

/-- A level from its name, or from an object with the name as its only field and no value. -/
def ofJson? : Json → Option Severity
  | .string text => ofText? text
  | .object [(text, .null)] => ofText? text
  | _ => none

end Severity

namespace Location

/-- A place as an object; what is absent is `null`. -/
def toJson (l : Location) : Json :=
  .object
    [("file", (l.file.map fun p => Json.string p.text).getD .null),
      ("line", .integer l.line),
      ("character", (l.character.map fun n => Json.integer n).getD .null)]

/-- Read a place. -/
def ofJson? (j : Json) : Option Location := do
  let r ← Json.Record.ofJson? ["file", "line", "character"] 0 j
  let file ← r.optional? "file" Json.asString?
  let line ← (← r.get? "line").asCount?
  let character ← r.optional? "character" Json.asCount?
  return { file := file.map Path.mk, line, character }

end Location

namespace Violation

/-- A finding as an object. -/
def toJson (v : Violation) : Json :=
  .object
    [("rule", .string v.rule), ("severity", v.severity.toJson), ("location", v.location.toJson),
      ("reason", .string v.reason)]

/-- Read a finding. -/
def ofJson? (j : Json) : Option Violation := do
  let r ← Json.Record.ofJson? ["rule", "severity", "location", "reason"] 0 j
  let rule ← (← r.get? "rule").asString?
  let severity ← Severity.ofJson? (← r.get? "severity")
  let location ← Location.ofJson? (← r.get? "location")
  let reason ← (← r.get? "reason").asString?
  return { rule, severity, location, reason }

end Violation

/-! ## Reports -/

namespace Diagnostic

/-- A diagnostic as an object. -/
def toJson (d : Diagnostic) : Json :=
  .object [("subject", .string d.subject), ("message", .string d.message)]

/-- Read a diagnostic. -/
def ofJson? (j : Json) : Option Diagnostic := do
  let r ← Json.Record.ofJson? ["subject", "message"] 0 j
  let subject ← (← r.get? "subject").asString?
  let message ← (← r.get? "message").asString?
  return { subject, message }

end Diagnostic

namespace Report

/-- **A report as an object.** -/
def toJson (r : Report) : Json :=
  .object <|
    [("violations", Json.array (r.violations.map Violation.toJson)),
      ("files_checked", .integer r.filesChecked)]
      ++ if r.diagnostics.isEmpty then []
        else [("diagnostics", .array (r.diagnostics.map Diagnostic.toJson))]

/-- **Read a report.** Missing diagnostics are none. -/
def ofJson? (j : Json) : Option Report := do
  let r ← Json.Record.ofJson? ["violations", "files_checked", "diagnostics"] 1 j
  let violations ← (← (← r.get? "violations").asArray?).mapM Violation.ofJson?
  let filesChecked ← (← r.get? "files_checked").asCount?
  let diagnostics ←
    match r.get? "diagnostics" with
    | none => some []
    | some value => do (← value.asArray?).mapM Diagnostic.ofJson?
  return { violations, filesChecked, diagnostics }

/-- The report that a text holds. -/
def parse? (text : String) : Option Report := (Json.parse? text).bind ofJson?

end Report

end SwiftStyle
