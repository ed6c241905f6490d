import SwiftStyle.Files.Discovery
import SwiftStyle.Index.Basic
import SwiftStyle.Report
import SwiftStyle.Source.Loading

/-!
# Index/Build — scanning files for declarations

Changed files are always scanned, and whole directories besides when there is no index to build on.
What is found is recorded in the order of the files, on top of what the index held.
-/

namespace SwiftStyle

/-- What to scan, and for what. -/
structure IndexBuilder where
  /-- Changed files or directories. -/
  changed : List Path := []
  /-- Scanned as well when there is no index. -/
  fallback : List Path := []
  discovery : Discovery := {}
  trackedKind : NodeKind := .protocol

/-- The outcome of a build. -/
structure IndexOutcome where
  index : DeclarationIndex
  /-- The files that were scanned, in their order. -/
  scanned : List Path
  /-- Whether there was no index to build on. -/
  fullRescan : Bool
  /-- Files that could not be loaded. -/
  diagnostics : List Diagnostic

namespace IndexBuilder

/-- Where to look for files. -/
def roots (b : IndexBuilder) (existing : Option DeclarationIndex) : List Path :=
  if existing.isNone then b.changed ++ b.fallback else b.changed

/-- The tracked names of a file. -/
def scan (b : IndexBuilder) (x : Extractor) (t : FileTree) (file : Path) :
    Except LoadError (List String) :=
  (x.load t file).map (·.trackedNames b.trackedKind)

/-- The pairs of name and path that a scanned file adds. -/
def found (file : Path) : Except LoadError (List String) → List (String × String)
  | .ok names => names.map (·, file.text)
  | .error _ => []

/-- The diagnostic of a file that could not be loaded. -/
def diagnostic? (file : Path) : Except LoadError (List String) → Option Diagnostic
  | .ok _ => none
  | .error e => some ⟨file.text, e.message⟩

/-- **Build an index** on top of an existing one. -/
def build (b : IndexBuilder) (x : Extractor) (t : FileTree)
    (existing : Option DeclarationIndex) : IndexOutcome :=
  let files := b.discovery.discover t (b.roots existing)
  let scans := files.map fun file => (file, b.scan x t file)
  { index := (existing.getD .empty).merge (scans.flatMap fun (file, scan) => found file scan)
    scanned := files
    fullRescan := existing.isNone
    diagnostics := scans.filterMap fun (file, scan) => diagnostic? file scan }

end IndexBuilder

end SwiftStyle
