import SwiftStyle.Path
import SwiftStyle.Severity

/-!
# Violation — a finding and its place

Two orders on findings: `compareInFile` (line, character, rule) and `compareAcrossFiles` (file
first). Neither looks at severity or reason, so sorting must be stable; `sortInFile` and
`sortAcrossFiles` are.
-/

namespace SwiftStyle

/-- A place in a source file. -/
structure Location where
  /-- Absent for contents that come from no file. -/
  file : Option Path := none
  /-- Counted from 1. -/
  line : Nat
  /-- Counted from 1; absent when the whole line is meant. -/
  character : Option Nat := none
deriving DecidableEq, Repr

/-- How a unit is named in messages. -/
def displayFile : Option Path → String
  | some file => file.text
  | none => "<stdin>"

/-- `file:line` or `file:line:character`. -/
def Location.text (l : Location) : String :=
  displayFile l.file ++ ":" ++ toString l.line ++
    match l.character with
    | some character => ":" ++ toString character
    | none => ""

/-- The same place: files that name the same steps, line and character. -/
def Location.sameAs (a b : Location) : Bool :=
  (match a.file, b.file with
    | none, none => true
    | some f, some g => f.sameSteps g
    | _, _ => false)
    && a.line == b.line && a.character == b.character

/-- A finding of a rule. -/
structure Violation where
  /-- Identifier of the rule. -/
  rule : String
  severity : Severity
  location : Location
  reason : String
deriving DecidableEq, Repr

namespace Violation

/-- Order inside one file: line, then character with the whole line first, then rule. -/
def compareInFile (a b : Violation) : Ordering :=
  (compare a.location.line b.location.line).then
    ((compare a.location.character b.location.character).then (compare a.rule b.rule))

/-- Order across files: the file with none first, then the order inside one file. -/
def compareAcrossFiles (a b : Violation) : Ordering :=
  (compare a.location.file b.location.file).then (compareInFile a b)

/-- The same finding, however the path of its file is written. -/
def sameAs (a b : Violation) : Bool :=
  a.rule == b.rule && a.severity == b.severity && a.location.sameAs b.location
    && a.reason == b.reason

/-- Stable sort by `compareInFile`. -/
def sortInFile (vs : List Violation) : List Violation :=
  vs.mergeSort (fun a b => (compareInFile a b).isLE)

/-- Stable sort by `compareAcrossFiles`. -/
def sortAcrossFiles (vs : List Violation) : List Violation :=
  vs.mergeSort (fun a b => (compareAcrossFiles a b).isLE)

/-- The finding on one line. -/
def line (v : Violation) : String :=
  s!"{v.location.text}: {v.severity.text} [{v.rule}] {v.reason}"

/-- The finding on two lines. -/
def paragraph (v : Violation) : String :=
  s!"{v.rule} at {v.location.text}\n  {v.severity.text}: {v.reason}\n"

end Violation

end SwiftStyle
