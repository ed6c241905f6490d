import SwiftStyle.Rule
import SwiftStyle.Text.Uppercase

/-!
# Rules/TypeName — the names of protocols, classes, structs and enums

A name begins with an upper-case character and has a bounded length. Options: `min_length` (3) and
`max_length` (40).
-/

namespace SwiftStyle.TypeName

/-- The description of the rule. -/
def descriptor : RuleDescriptor where
  identifier := "type_name"
  name := "Type Name"
  description :=
    "Type names should start with an uppercase character and be between 3 and 40 characters long."
  nonTriggeringExamples :=
    ["struct MyType \x7b\x7d\n", "protocol Drawable \x7b\x7d\n",
      "class Outer \x7b\n    enum Inner \x7b\x7d\n\x7d\n", "extension abc \x7b\x7d\n",
      "let abc = MyType()\n"]
  triggeringExamples :=
    ["↓struct myType \x7b\x7d\n", "↓class My \x7b\x7d\n",
      "↓protocol A" ++ "".pushn 'a' 40 ++ " \x7b\x7d\n",
      "class Outer \x7b\n    ↓enum inner \x7b\x7d\n\x7d\n"]

/-- What can be wrong with a name. -/
inductive Problem
  | lowercaseStart
  | badLength
deriving DecidableEq, Repr

/-- What is wrong with a name; its first character is looked at before its length. -/
def problem? (shortest longest : Nat) (name : List Char) : Option Problem :=
  if (name.head?.map Text.isUppercase) != some true then some .lowercaseStart
  else if name.length < shortest || longest < name.length then some .badLength
  else none

/-- The wording of a problem. -/
def reason (shortest longest : Nat) (name : String) : Problem → String
  | .lowercaseStart => s!"Type name should start with an uppercase character: '{name}'"
  | .badLength =>
      s!"Type name should be between {shortest} and {longest} characters long: '{name}'"

/-- The finding on one node of the structure tree. -/
def finding? (path : Option Path) (lines : List Line) (shortest longest : Nat) (node : Node) :
    Option Violation := do
  guard node.kind.isType
  let name ← node.name
  let problem ← problem? shortest longest name.toList
  let position ← positionIn? lines node.offset
  return {
    rule := descriptor.identifier
    severity := .medium
    location := { file := path, line := position.line, character := some position.character }
    reason := reason shortest longest name problem }

/-- The findings of the rule, in the order of a walk. -/
def findings (unit : SourceUnit) (options : Options) : List Violation :=
  let lines := unit.lines
  unit.tree.walk.filterMap
    (finding? unit.path lines (options.count "min_length" 3) (options.count "max_length" 40))

/-- The rule. -/
def rule : Rule := .ofFindings descriptor findings

end SwiftStyle.TypeName
