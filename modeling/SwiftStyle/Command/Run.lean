import SwiftStyle.Command.Indexing
import SwiftStyle.Command.Listing
import SwiftStyle.Command.Template

/-!
# Command/Run — a whole command line

Arguments are read, and the command they name is run. Arguments that name none end in a failure
before anything is looked at.
-/

namespace SwiftStyle.Command

/-- The outcome of a request. -/
def Invocation.outcome (i : Invocation) (s : Surroundings) (faults : Faults) : Outcome :=
  match i.request with
  | .lint a => a.outcome s i.common faults
  | .index a => a.outcome s i.common faults
  | .rules format => { exitCode := .success, output := listing format, tree := s.tree }
  | .init force => initOutcome faults s.tree force

/-- The line that tells the version. -/
def versionText : String := "tidemark 0.3.0\n"

/-- The outcome of arguments that name no command. Explaining the arguments is left to the caller. -/
def Stop.outcome (t : FileTree) : Stop → Outcome
  | .help => { exitCode := .success, tree := t }
  | .version => { exitCode := .success, output := versionText, tree := t }
  | .malformed => { exitCode := .failure, tree := t }

/-- **The outcome of a command line.** -/
def run (arguments : List String) (s : Surroundings) (faults : Faults) : Outcome :=
  match parse arguments with
  | .error stop => stop.outcome s.tree
  | .ok i => i.outcome s faults

end SwiftStyle.Command
