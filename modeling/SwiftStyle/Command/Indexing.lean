import SwiftStyle.Command.Linting

/-!
# Command/Indexing — the command that keeps the index

The index is loaded from the cache, brought up to date and written back. Files that could not be
loaded are warned about and do not make the command fail.
-/

namespace SwiftStyle.Command

namespace IndexArguments

/-- The builder that the arguments and the configuration describe. -/
def builder (a : IndexArguments) (config : Config) : IndexBuilder where
  changed := a.paths
  fallback := a.directories
  discovery := .ofSettings config.linter
  trackedKind := config.index.trackedKind

/-- The line that a run prints. -/
def summary (cache : Path) (o : IndexOutcome) : String :=
  s!"Indexed {o.index.size} declarations from {o.scanned.length} scanned files"
    ++ (if o.fullRescan then " (full rescan)" else "") ++ s!" into {cache.text}\n"

/-- The warning about a file. -/
def warning (d : Diagnostic) : String := s!"warning: {d.text}\n"

/-- **Bring the index up to date.** A failure may leave directories on the way to the cache. -/
def outcome (a : IndexArguments) (s : Surroundings) (common : Common) (faults : Faults) : Outcome :=
  match loadConfig s common with
  | .error e => .failed s.tree e
  | .ok config =>
      match a.cachePath.or config.index.cachePath with
      | none => .failed s.tree .noCachePath
      | some cache =>
          match (a.builder config).run Swift.extractor faults s.tree cache with
          | (tree, .error e) => .failed tree (.index cache e)
          | (tree, .ok o) =>
              { exitCode := .success
                output := summary cache o
                errors := String.join (o.diagnostics.map warning)
                tree }

end IndexArguments

end SwiftStyle.Command
