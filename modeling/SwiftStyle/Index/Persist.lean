import SwiftStyle.Files.Replacement
import SwiftStyle.Index.Build
import SwiftStyle.Index.Json

/-!
# Index/Persist — an index kept in a file from run to run

A run loads the index, builds on it and writes the outcome back by replacement. A file that is
missing or corrupt counts as no index.
-/

namespace SwiftStyle

/-- The index could not be written. -/
structure PersistError where
  path : Path
  cause : FileError
deriving DecidableEq, Repr

/-- The wording of the error. -/
def PersistError.message (e : PersistError) : String :=
  s!"Failed to persist index to {e.path.text}: {e.cause.message}"

/-- The wording of the error with what caused it. -/
def PersistError.chain (e : PersistError) : String := e.message ++ ": " ++ e.cause.message

/-- **Write an index to a file.** -/
def DeclarationIndex.persist (i : DeclarationIndex) (faults : Faults) (t : FileTree) (path : Path) :
    Replacement :=
  t.replaceFile faults path i.text.toUTF8

/-- **Load an index, build on it and write it back.** The tree is the one after the run. -/
def IndexBuilder.run (b : IndexBuilder) (x : Extractor) (faults : Faults) (t : FileTree)
    (cache : Path) : FileTree × Except PersistError IndexOutcome :=
  let outcome := b.build x t (DeclarationIndex.load t cache).index?
  let written := outcome.index.persist faults t cache
  (written.final,
    match written.outcome with
    | .ok () => .ok outcome
    | .error cause => .error ⟨cache, cause⟩)

end SwiftStyle
