import SwiftStyle.Rule

/-!
# Rules/MultilineArguments — call arguments on one line, or one per line

A call whose arguments all begin on one line is accepted. Otherwise each argument after the first
begins on a line where no earlier one begins, and the first one keeps to the configured placement.
Option: `first_argument_location`, one of `any_line`, `same_line` and `next_line`.
-/

namespace SwiftStyle

/-- Where the first argument of a call over several lines begins. -/
inductive Placement
  | anyLine
  | sameLine
  | nextLine
deriving DecidableEq, Repr, Inhabited

namespace Placement

/-- The word for a placement. -/
def text : Placement → String
  | anyLine => "any_line"
  | sameLine => "same_line"
  | nextLine => "next_line"

/-- The placement of a word. -/
def ofText? : String → Option Placement
  | "any_line" => some anyLine
  | "same_line" => some sameLine
  | "next_line" => some nextLine
  | _ => none

/-- A word that names no placement. -/
structure Unknown where
  word : String
deriving DecidableEq, Repr

/-- The wording of the error. -/
def Unknown.message (e : Unknown) : String := s!"unknown first argument location '{e.word}'"

/-- Read a placement. -/
def parse (word : String) : Except Unknown Placement :=
  match ofText? word with
  | some placement => .ok placement
  | none => .error ⟨word⟩

/-- Whether a first argument on line `first` is out of place for a call on line `call`. -/
def misplaced (p : Placement) (call first : Nat) : Bool :=
  match p with
  | anyLine => false
  | sameLine => first != call
  | nextLine => first == call

/-- Whether arguments that all begin on line `first` are accepted for a call on line `call`. -/
def acceptsSingleLine (p : Placement) (call first : Nat) : Bool :=
  match p with
  | sameLine => first == call
  | anyLine | nextLine => true

end Placement

namespace MultilineArguments

/-- The description of the rule. -/
def descriptor : RuleDescriptor where
  identifier := "multiline_arguments"
  name := "Multiline Arguments"
  description := "Arguments should be either on the same line, or one per line."
  nonTriggeringExamples :=
    ["foo()", "foo(\n)", "foo \x7b \x7d", "foo(0)", "foo(0, 1)", "foo(0, param1: 1) \x7b \x7d",
      "foo(param1: 1, param2: true, param3: [3]) \x7b\n    bar()\n\x7d",
      "foo(param1: 1,\n    param2: true,\n    param3: [3])",
      "foo(\n    param1: 1, param2: true, param3: [3]\n)",
      "foo(\n    param1: 1,\n    param2: true,\n    param3: [3]\n)", "foo(a, bar(b,\n    c))"]
  triggeringExamples :=
    ["foo(0, ↓param1: 1,\n    param2: true, ↓param3: [3])",
      "foo(\n    param1: 1,\n    param2: true, ↓param3: [3]\n)",
      "foo(param1: 1, ↓param2: true,\n    param3: [3])",
      "let x = Value(a: 1,\n    b: bar(c, ↓d: 2,\n    e: 3))"]

/-- The positions that begin on a line where an earlier one begins; `occupied` are the lines of the
earlier ones. -/
def crowded : List Nat → List Position → List Position
  | _, [] => []
  | occupied, p :: rest =>
      if occupied.contains p.line then p :: crowded occupied rest
      else crowded (p.line :: occupied) rest

/-- **The argument positions that a call on line `call` gets wrong.** -/
def offending (placement : Placement) (call : Nat) : List Position → List Position
  | [] => []
  | first :: rest =>
      if rest.all (·.line == first.line) && placement.acceptsSingleLine call first.line then []
      else
        (if placement.misplaced call first.line then [first] else [])
          ++ crowded [first.line] rest

/-- The positions of the arguments of a call that lie in the contents. -/
def argumentPositions (lines : List Line) (call : Node) : List Position :=
  (call.children.filter (·.kind = .argument)).filterMap fun node => positionIn? lines node.offset

/-- The offending positions of one node of the structure tree; none unless it is a call. -/
def offendingIn (lines : List Line) (placement : Placement) (node : Node) : List Position :=
  if node.kind = .call then
    match positionIn? lines node.offset with
    | none => []
    | some call => offending placement call.line (argumentPositions lines node)
  else []

/-- The finding at a position. -/
def finding (path : Option Path) (p : Position) : Violation where
  rule := descriptor.identifier
  severity := .medium
  location := { file := path, line := p.line, character := some p.character }
  reason := "Arguments should be either on the same line, or one per line."

/-- The placement of a rule's options. -/
def placementOf (options : Options) : Placement :=
  options.choice "first_argument_location" Placement.ofText? .anyLine

/-- The findings of the rule, call by call in the order of a walk. -/
def findings (unit : SourceUnit) (options : Options) : List Violation :=
  let lines := unit.lines
  (unit.tree.walk.flatMap (offendingIn lines (placementOf options))).map (finding unit.path)

/-- The rule. -/
def rule : Rule := .ofFindings descriptor findings

end MultilineArguments

end SwiftStyle
