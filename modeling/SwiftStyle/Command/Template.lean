import SwiftStyle.Command.Outcome

/-!
# Command/Template — the command that writes a first configuration file

The file it writes says in full what holds without any file. A file that is there is kept unless the
command is forced.
-/

namespace SwiftStyle.Command

/-- The contents of a first configuration file. -/
def template : String :=
  "# tidemark configuration

[linter]
# Extension of lintable files
extension = \"swift\"

# Glob patterns to exclude from linting
exclude = [
    \"**/Pods/**\",
    \"**/Carthage/**\",
    \"**/.build/**\",
]

# Respect .gitignore files
respect_gitignore = true

# Lowest severity that makes `tidemark lint` exit with status 1
fail_on = \"low\"

# Worker threads (default: available parallelism)
# jobs = 4

[index]
# Declarations recorded by `tidemark index`
tracked_kind = \"protocol\"
# cache_path = \".tidemark/index.json\"

# Rule configurations
# Each rule can be enabled/disabled and have its severity overridden

[rules.line_length]
warning = 120
error = 200

[rules.file_length]
warning = 400
error = 1000

[rules.trailing_whitespace]
ignores_empty_lines = false

# Opt-in rule
# [rules.multiline_arguments]
# enabled = true
# first_argument_location = \"any_line\"
"

/-- Where the file goes. -/
def templatePath : Path := ⟨"tidemark.toml"⟩

/-- What the command prints. -/
def templateAdvice : String :=
  "Created tidemark.toml\n"
    ++ "\nNext steps:\n"
    ++ "  1. Edit tidemark.toml to configure rules\n"
    ++ "  2. Run: tidemark lint\n"

/-- **The tree with a first configuration file.** -/
def writeTemplate (faults : Faults) (t : FileTree) (force : Bool) : Except CommandError FileTree :=
  if (t.entry? templatePath).isSome && !force then .error (.configThere templatePath)
  else
    match faults.inPlace? with
    | some e => .error (.configNotWritten templatePath e)
    | none => (t.write templatePath template.toUTF8).mapError (.configNotWritten templatePath)

/-- The outcome of writing a first configuration file. -/
def initOutcome (faults : Faults) (t : FileTree) (force : Bool) : Outcome :=
  match writeTemplate faults t force with
  | .error e => .failed t e
  | .ok tree => { exitCode := .success, output := templateAdvice, tree }

end SwiftStyle.Command
