import SwiftStyle.Command.Arguments
import SwiftStyle.Command.Outcome
import SwiftStyle.Swift.Structure

/-!
# Command/Linting — the command that lints

It loads the configuration, chooses the rules, starts its workers, lints standard input or the files
under the given paths, and prints the report. Findings that reach the threshold make it end with an
exit code of their own.
-/

namespace SwiftStyle.Command

/-- The directory where commands look for a configuration. -/
def projectDirectory : Path := ⟨"."⟩

/-- The text of standard input, read up to its end. -/
def Surroundings.inputText (s : Surroundings) (faults : Faults) : Except FileError String :=
  match faults.input? with
  | some e => .error e
  | none =>
      match String.fromUTF8? s.input with
      | some contents => .ok contents
      | none => .error .notText

/-- The configuration of a command. -/
def loadConfig (s : Surroundings) (common : Common) : Except CommandError Config :=
  (Config.load s.tree s.environment projectDirectory common.config).mapError .config

namespace LintArguments

/-- The configuration with what the arguments add to it and replace in it. -/
def adjust (a : LintArguments) (config : Config) : Config :=
  { config with
    linter :=
      { config.linter with
        exclude := config.linter.exclude ++ a.exclude
        jobs := a.jobs.or config.linter.jobs
        failOn := a.failOn.getD config.linter.failOn } }

/-- **The rules that were asked for**: the named ones, or those of the preset and the ones that the
configuration switches on. -/
def chooseRules (a : LintArguments) (config : Config) : Except Catalog.UnknownRule (List Rule) :=
  if a.rules.isEmpty then
    let chosen := a.preset.rules
    .ok <| chosen ++ Catalog.rules.filter fun r =>
      config.isOptedIn r.identifier && !chosen.any (·.identifier == r.identifier)
  else Catalog.select a.rules

/-- The paths to lint: the working directory when none are given. -/
def roots (a : LintArguments) : List Path := if a.paths.isEmpty then [⟨"."⟩] else a.paths

/-- The report that was asked for. -/
def report (a : LintArguments) (s : Surroundings) (faults : Faults) (linter : Linter) :
    Except CommandError Report :=
  if a.fromInput then do
    let contents ← (s.inputText faults).mapError .inputNotRead
    (linter.lintContents Swift.extractor contents).mapError .lint
  else (linter.lintPaths Swift.extractor s.tree a.roots).mapError .lint

/-- A report as it is printed. In JSON a path without a text cannot be told. -/
def print (a : LintArguments) (faults : Faults) (report : Report) : Except CommandError String :=
  if a.format = .json ∧ report.violations.any (·.location.file.any faults.unprintable) then
    .error .pathNotText
  else .ok (report.render a.format false)

/-- **Lint**, and answer with the printed report and whether findings reach the threshold. -/
def run (a : LintArguments) (s : Surroundings) (common : Common) (faults : Faults) :
    Except CommandError (String × Bool) := do
  let config := a.adjust (← loadConfig s common)
  let rules ← (a.chooseRules config).mapError .unknownRule
  let linter ← (Linter.build faults rules config).mapError .noLinter
  let report ← a.report s faults linter
  return (← a.print faults report, report.hasViolationsAt config.linter.failOn)

/-- The outcome of a lint run. It leaves the tree as it is. -/
def outcome (a : LintArguments) (s : Surroundings) (common : Common) (faults : Faults) : Outcome :=
  match a.run s common faults with
  | .error e => .failed s.tree e
  | .ok (output, fails) =>
      { exitCode := if fails then .findings else .success, output, tree := s.tree }

end LintArguments

end SwiftStyle.Command
