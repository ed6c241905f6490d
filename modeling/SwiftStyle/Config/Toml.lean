import SwiftStyle.Config
import SwiftStyle.Toml.Parser

/-!
# Config/Toml — configurations as TOML documents

A document has three tables, `linter`, `index` and `rules`, and each of them may be missing, as may
every setting in them. Keys that mean nothing are passed over; a setting with a value of the wrong
type is an error. In a table of `rules`, all keys but `enabled` and `severity` are options.
-/

namespace SwiftStyle.Config

/-- The key under which a date counts as a table with one entry. -/
def momentKey : String := "$__toml_private_datetime"

/-- The values of settings, in the order `names`: those of a table by name, those of an array by
place. A date has none of them. -/
def settingsOf? (names : List String) : Toml.Value → Option Toml.Table
  | .table entries => some entries
  | .array items => some (names.zip items)
  | .moment _ => some []
  | _ => none

/-- The setting of a name: the default when it is missing, `none` when it is of the wrong type. -/
def setting? {α : Type} (settings : Toml.Table) (name : String) (read : Toml.Value → Option α)
    (default : α) : Option α :=
  match settings.get? name with
  | none => some default
  | some value => read value

/-- A word out of a fixed list: a string, or a table with the word as its only key and nothing
under it. -/
def word? {α : Type} (read : String → Option α) : Toml.Value → Option α
  | .string text => read text
  | .table [(text, .table [])] => read text
  | .table [(text, .array [])] => read text
  | _ => none

/-- A number from 0 up. -/
def count? : Toml.Value → Option Nat
  | .integer (.ofNat n) => some n
  | _ => none

/-- A list of texts. -/
def texts? : Toml.Value → Option (List String)
  | .array items => items.mapM Toml.Value.asString?
  | _ => none

/-- Settings of a lint run. -/
def linter? (value : Toml.Value) : Option LinterSettings := do
  let settings ←
    settingsOf? ["extension", "exclude", "respect_gitignore", "jobs", "fail_on"] value
  let default : LinterSettings := {}
  let extension ← setting? settings "extension" Toml.Value.asString? default.extension
  let exclude ← setting? settings "exclude" texts? default.exclude
  let respectIgnoreFiles ←
    setting? settings "respect_gitignore" Toml.Value.asBoolean? default.respectIgnoreFiles
  let jobs ← setting? settings "jobs" (fun v => (count? v).map some) default.jobs
  let failOn ← setting? settings "fail_on" (word? Severity.ofText?) default.failOn
  return { extension, exclude, respectIgnoreFiles, jobs, failOn }

/-- Settings of the declaration index. -/
def index? (value : Toml.Value) : Option IndexSettings := do
  let settings ← settingsOf? ["tracked_kind", "cache_path"] value
  let default : IndexSettings := {}
  let trackedKind ← setting? settings "tracked_kind" (word? NodeKind.ofText?) default.trackedKind
  let cachePath ←
    setting? settings "cache_path" (fun v => v.asString?.map fun text => some ⟨text⟩)
      default.cachePath
  return { trackedKind, cachePath }

/-- Settings of one rule. -/
def rule? : Toml.Value → Option RuleSettings
  | .table entries => do
      let enabled ← setting? entries "enabled" (fun v => v.asBoolean?.map some) none
      let severity ← setting? entries "severity" (fun v => (word? Severity.ofText? v).map some) none
      let options := entries.filter fun (key, _) => key != "enabled" && key != "severity"
      return { enabled, severity, options }
  | .moment m => some { options := [(momentKey, .string m.text)] }
  | _ => none

/-- Settings of all rules. -/
def rules? : Toml.Value → Option (List (String × RuleSettings))
  | .table entries => entries.mapM fun (identifier, value) => do
      return (identifier, ← rule? value)
  | _ => none

/-- The configuration that a document describes. -/
def ofTable? (document : Toml.Table) : Option Config := do
  let linter ← setting? document "linter" linter? {}
  let index ← setting? document "index" index? {}
  let rules ← setting? document "rules" rules? []
  return { linter, index, rules }

/-- **Read a configuration** from the text of a TOML document. -/
def parse? (text : String) : Option Config := (Toml.parse? text).bind ofTable?

end SwiftStyle.Config
