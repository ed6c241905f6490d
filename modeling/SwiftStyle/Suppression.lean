import SwiftStyle.Source.Unit
import SwiftStyle.Text.Search

/-!
# Suppression — comments that silence rules

A directive is a `//` comment `tidemark:disable:` with a scope and rule names:

* `// tidemark:disable:next-line line_length, type_name` silences two rules on the line below,
* `let a = 1 // tidemark:disable:this-line all` silences every rule on its own line.

`Directive.parse?` reads one from a line; `Suppressions.collect` gathers those of a unit.
-/

namespace SwiftStyle

/-- The line that a directive speaks of. -/
inductive Directive.Scope
  | thisLine
  | nextLine
deriving DecidableEq, Repr

/-- A comment that silences rules on one line. -/
structure Directive where
  scope : Directive.Scope
  rules : List String
deriving DecidableEq, Repr

namespace Directive

/-- The text that opens a directive. -/
def marker : List Char := "tidemark:disable:".toList

/-- The name that stands for every rule. -/
def everyRule : String := "all"

/-- The scope that a text begins with, and what follows it. -/
def scopeOf? (text : List Char) : Option (Scope × List Char) :=
  match Text.dropLead? "next-line".toList text with
  | some rest => some (.nextLine, rest)
  | none => (Text.dropLead? "this-line".toList text).map fun rest => (.thisLine, rest)

/-- Rule names are separated by commas and white space. -/
def isSeparator (c : Char) : Bool := c == ',' || Text.isBlank c

/-- **The directive of a line.** The last marker of the line counts, and only when `//` stands
before it; a directive names at least one rule. -/
def parse? (line : List Char) : Option Directive := do
  let (before, after) ← Text.splitLast? marker line
  guard (Text.endsWith "//".toList (Text.trimEnd before))
  let (scope, rest) ← scopeOf? (Text.trimEnd after)
  let rules := (Text.words isSeparator rest).map String.ofList
  guard (rules ≠ [])
  return ⟨scope, rules⟩

/-- The line that a directive on line `index` speaks of. -/
def target (d : Directive) (index : Nat) : Nat :=
  match d.scope with
  | .thisLine => index
  | .nextLine => index + 1

end Directive

/-- The rules that are silenced on each line of a unit. -/
structure Suppressions where
  /-- A line and the rules that one directive silences there. -/
  entries : List (Nat × List String)
deriving DecidableEq, Repr

namespace Suppressions

/-- The directives of a line table. -/
def ofLines (lines : List Line) : Suppressions :=
  ⟨lines.filterMap fun line =>
    (Directive.parse? line.text).map fun d => (d.target line.index, d.rules)⟩

/-- **The directives of a unit.** Contents without the marker are not looked at line by line. -/
def collect (unit : SourceUnit) : Suppressions :=
  if Text.contains Directive.marker unit.contents.toList then ofLines unit.lines else ⟨[]⟩

/-- Whether a rule is silenced on a line, by name or with every other. -/
def isSuppressed (s : Suppressions) (line : Nat) (rule : String) : Bool :=
  s.entries.any fun (target, rules) =>
    target == line && (rules.contains rule || rules.contains Directive.everyRule)

/-- Whether there is no directive. -/
def isEmpty (s : Suppressions) : Bool := s.entries.isEmpty

end Suppressions

end SwiftStyle
