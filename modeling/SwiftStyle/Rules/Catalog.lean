import SwiftStyle.Rules.FileLength
import SwiftStyle.Rules.LineLength
import SwiftStyle.Rules.MultilineArguments
import SwiftStyle.Rules.TrailingNewline
import SwiftStyle.Rules.TrailingWhitespace
import SwiftStyle.Rules.TypeName

/-!
# Rules/Catalog — the built-in rules and how they are chosen

The rules in listing order, three presets, and selection by identifier.
-/

namespace SwiftStyle

namespace Catalog

/-- **Every built-in rule**, in listing order. -/
def rules : List Rule :=
  [FileLength.rule, LineLength.rule, MultilineArguments.rule, TrailingNewline.rule,
    TrailingWhitespace.rule, TypeName.rule]

/-- The descriptions of the built-in rules. -/
def descriptors : List RuleDescriptor := rules.map (·.descriptor)

/-- The identifiers of the built-in rules. -/
def identifiers : List String := rules.map (·.identifier)

/-- The built-in rule with an identifier. -/
def find? (identifier : String) : Option Rule := rules.find? (·.identifier == identifier)

/-- An identifier that no built-in rule has. -/
structure UnknownRule where
  identifier : String
deriving DecidableEq, Repr

/-- The wording of the error. -/
def UnknownRule.message (e : UnknownRule) : String :=
  s!"Unknown rule '{e.identifier}'. Available rules: " ++ ", ".intercalate identifiers

/-- Add the rules of `names` to those that are `chosen`, each once, up to the first unknown one. -/
def selectFrom (chosen : List Rule) : List String → Except UnknownRule (List Rule)
  | [] => .ok chosen
  | name :: names =>
      let identifier := String.ofList (Text.trim name.toList)
      if chosen.any (·.identifier == identifier) then selectFrom chosen names
      else
        match find? identifier with
        | none => .error ⟨identifier⟩
        | some rule => selectFrom (chosen ++ [rule]) names

/-- **The named rules**, white space around a name left out, each once in the order of first
mention. -/
def select (names : List String) : Except UnknownRule (List Rule) := selectFrom [] names

end Catalog

/-- Ready-made choices of rules. -/
inductive Preset
  | default
  | all
  | minimal
deriving DecidableEq, Repr, Inhabited

namespace Preset

/-- The preset of a word. -/
def ofText? : String → Option Preset
  | "default" => some default
  | "all" => some all
  | "minimal" => some minimal
  | _ => none

/-- The rules of a preset: all but the opt-in one, all, or those about white space. -/
def rules : Preset → List Rule
  | default =>
      [FileLength.rule, LineLength.rule, TrailingNewline.rule, TrailingWhitespace.rule,
        TypeName.rule]
  | all => Catalog.rules
  | minimal => [TrailingNewline.rule, TrailingWhitespace.rule]

end Preset

end SwiftStyle
