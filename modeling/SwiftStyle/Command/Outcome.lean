import SwiftStyle.Config.Resolution
import SwiftStyle.Index.Persist
import SwiftStyle.Lint.Files
import SwiftStyle.Rules.Catalog

/-!
# Command/Outcome — what commands see, and how they end

A command sees a tree of files, the environment and standard input; what it meets besides is a
matter of `Faults`. Why it fails is a `CommandError`; what it leaves is an `Outcome`.
-/

namespace SwiftStyle.Command

/-- What a command sees of the world. -/
structure Surroundings where
  tree : FileTree
  environment : Environment := {}
  /-- What standard input holds. -/
  input : ByteArray := .empty

/-- Why a command fails. -/
inductive CommandError
  | config (cause : ConfigLoadError)
  | unknownRule (cause : Catalog.UnknownRule)
  | noLinter (cause : PoolError)
  | inputNotRead (cause : FileError)
  | lint (cause : LintError)
  /-- A report tells of a path that JSON has no place for. -/
  | pathNotText
  | noCachePath
  | index (path : Path) (cause : PersistError)
  | configThere (path : Path)
  | configNotWritten (path : Path) (cause : FileError)
deriving DecidableEq, Repr

/-- The wording of a command error with what caused it. -/
def CommandError.message : CommandError → String
  | config cause => cause.chain
  | unknownRule cause => cause.message
  | noLinter cause => "Failed to build linter: " ++ cause.chain
  | inputNotRead cause => "Failed to read standard input: " ++ cause.message
  | lint cause => cause.message
  | pathNotText => "path contains invalid UTF-8 characters"
  | noCachePath => "No index path given: pass --cache-path or set [index] cache_path"
  | index path cause => s!"Failed to build index at {path.text}: {cause.chain}"
  | configThere path =>
      s!"Configuration file already exists at {path.text}. Use --force to overwrite."
  | configNotWritten path cause => s!"Failed to write {path.text}: {cause.message}"

/-- The exit codes. -/
inductive ExitCode
  | success
  /-- Findings reach the threshold. -/
  | findings
  | failure
deriving DecidableEq, Repr

/-- The number of an exit code. -/
def ExitCode.number : ExitCode → UInt8
  | success => 0
  | findings => 1
  | failure => 2

/-- What a command leaves. -/
structure Outcome where
  exitCode : ExitCode
  /-- Standard output. -/
  output : String := ""
  /-- Standard error. -/
  errors : String := ""
  tree : FileTree

/-- A failure: nothing on standard output. -/
def Outcome.failed (tree : FileTree) (e : CommandError) : Outcome where
  exitCode := .failure
  errors := s!"Error: {e.message}\n"
  tree

end SwiftStyle.Command
