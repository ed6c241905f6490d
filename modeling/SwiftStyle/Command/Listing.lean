import SwiftStyle.Command.Arguments

/-!
# Command/Listing — the command that lists the rules

As a table, followed by the presets, or as JSON.
-/

namespace SwiftStyle.Command

/-- A text with blanks after it up to a width. -/
def padded (width : Nat) (text : String) : String := text.pushn ' ' (width - text.length)

/-- Whether a rule runs without being asked for. -/
def isDefault (d : RuleDescriptor) : Bool :=
  Preset.default.rules.any (·.identifier == d.identifier)

/-- A row of the table. -/
def row (identifier default description : String) : String :=
  s!"{padded 22 identifier} {padded 8 default} {description}\n"

/-- What follows the table. -/
def presetsText : String :=
  "\nPresets:\n"
    ++ "  default  - every rule marked as default\n"
    ++ "  all      - every rule\n"
    ++ "  minimal  - trailing_newline, trailing_whitespace\n"
    ++ "\nUse --rules to run specific rules, e.g.:\n"
    ++ "  tidemark lint --rules line_length,trailing_whitespace\n"

/-- The rules as a table. -/
def listingText : String :=
  "Available rules:\n\n" ++ row "Identifier" "Default" "Description" ++ "".pushn '-' 80 ++ "\n"
    ++ String.join (Catalog.descriptors.map fun d =>
      row d.identifier (if isDefault d then "yes" else "no") d.description)
    ++ presetsText

/-- A rule as an object. -/
def listingEntry (d : RuleDescriptor) : Json :=
  .object
    [("identifier", .string d.identifier), ("name", .string d.name),
      ("description", .string d.description),
      ("non_triggering_examples", .array (d.nonTriggeringExamples.map Json.string)),
      ("triggering_examples", .array (d.triggeringExamples.map Json.string)),
      ("enabled_by_default", .boolean (isDefault d))]

/-- The rules as JSON. -/
def listingJson : String := (Json.array (Catalog.descriptors.map listingEntry)).pretty ++ "\n"

/-- **The listing** in a format. -/
def listing : ListingFormat → String
  | .text => listingText
  | .json => listingJson

end SwiftStyle.Command
