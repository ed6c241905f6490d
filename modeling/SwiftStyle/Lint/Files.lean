import SwiftStyle.Faults
import SwiftStyle.Files.Discovery
import SwiftStyle.Lint.Check
import SwiftStyle.Source.Loading

/-!
# Lint/Files — texts, files and directories under a list of rules

Every file is checked on its own, and the reports are put together and sorted. A file that cannot be
loaded becomes a diagnostic and is not counted. The number of workers that check has no influence on
a report, but without the workers that were asked for there is no linter.
-/

namespace SwiftStyle

/-- Why a lint run has no report. -/
inductive LintError
  /-- None of the paths searched leads to a file to lint. -/
  | noFiles (searched : List Path)
  | notLoaded (cause : LoadError)
deriving DecidableEq, Repr

/-- The wording of a lint error. -/
def LintError.message : LintError → String
  | noFiles searched =>
      "No lintable files found at paths " ++ " ".intercalate (searched.map (·.text))
  | notLoaded cause => cause.message

/-- The report of one file that was checked. -/
def UnitReport.asReport (r : UnitReport) : Report where
  violations := r.violations
  filesChecked := 1
  diagnostics := r.diagnostics

/-- The report of one file that could not be loaded. -/
def LoadError.asReport (e : LoadError) (path : Path) : Report where
  diagnostics := [⟨path.text, e.message⟩]

namespace Linter

/-- **A linter with the workers that its configuration asks for.** Where it asks for none, or for 0,
their number is left to the system. -/
def build (faults : Faults) (rules : List Rule) (config : Config) : Except PoolError Linter :=
  match (config.linter.jobs.filter (0 < ·)).bind faults.workers? with
  | some e => .error e
  | none => .ok { rules, config }

/-- **The report of a text** that comes from no file. -/
def lintContents (linter : Linter) (x : Extractor) (contents : String) : Except LintError Report :=
  match x.unitOf none contents with
  | .ok unit => .ok (linter.check unit).asReport
  | .error e => .error (.notLoaded e)

/-- The report of one file. -/
def lintFile (linter : Linter) (x : Extractor) (t : FileTree) (file : Path) : Report :=
  match x.load t file with
  | .ok unit => (linter.check unit).asReport
  | .error e => e.asReport file

/-- **The report of a list of files**, findings in their order across files. -/
def lintFiles (linter : Linter) (x : Extractor) (t : FileTree) (files : List Path) :
    Except LintError Report :=
  if files.isEmpty then .error (.noFiles [])
  else .ok ((files.map (linter.lintFile x t)).foldl Report.extend {}).sort

/-- **The report of the files under a list of roots.** -/
def lintPaths (linter : Linter) (x : Extractor) (t : FileTree) (roots : List Path) :
    Except LintError Report :=
  let files := (Discovery.ofSettings linter.config.linter).discover t roots
  if files.isEmpty then .error (.noFiles roots) else linter.lintFiles x t files

end Linter

end SwiftStyle
