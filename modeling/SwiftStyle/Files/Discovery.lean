import SwiftStyle.Config
import SwiftStyle.Files.ExcludePattern
import SwiftStyle.Files.IgnoreRule

/-!
# Files/Discovery — the files to lint

Roots are files or directories. A file counts as it is, a directory stands for the files below it
that are neither hidden nor ignored; in both cases only files with the right extension that no
exclude pattern leaves out. The result is a sorted list of absolute paths without repetition.
-/

namespace SwiftStyle

/-- What to look for. -/
structure Discovery where
  /-- Without the dot. -/
  extension : String := "swift"
  exclude : List String := []
  respectIgnoreFiles : Bool := true
deriving DecidableEq, Repr

namespace Discovery

/-- The discovery of a lint run. -/
def ofSettings (s : LinterSettings) : Discovery where
  extension := s.extension
  exclude := s.exclude
  respectIgnoreFiles := s.respectIgnoreFiles

/-- Whether some exclude pattern leaves out a path. -/
def isExcluded (d : Discovery) (p : Path) : Bool :=
  d.exclude.any fun pattern => ExcludePattern.excludes pattern p.text

/-- Files with the right extension that are not left out. -/
def accepts (d : Discovery) (p : Path) : Bool :=
  p.extension? == some d.extension && !d.isExcluded p

/-! ## Directories -/

/-- Whether a walk passes over an entry: an ignored one, and a hidden one unless it is kept. -/
def skips (d : Discovery) (t : FileTree) (place : Place) (isDirectory : Bool) : Bool :=
  match if d.respectIgnoreFiles then t.verdict? place isDirectory else none with
  | some .ignored => true
  | some .kept => false
  | none => (place.getLast?.getD "").startsWith "."

/-- Whether a walk gets from a directory along a way to the file at its end. -/
def reaches (d : Discovery) (t : FileTree) : Place → Place → Bool
  | _, [] => false
  | root, [name] => !d.skips t (root ++ [name]) false
  | root, name :: way => !d.skips t (root ++ [name]) true && reaches d t (root ++ [name]) way

/-- The way from one place to another below it. -/
def wayBelow? : Place → Place → Option Place
  | [], place => some place
  | _ :: _, [] => none
  | r :: root, p :: place => if r = p then wayBelow? root place else none

/-- The ways from a directory to the files that a walk of it yields. -/
def walk (d : Discovery) (t : FileTree) (root : Place) : List Place :=
  t.entries.filterMap fun (place, entry) =>
    match entry with
    | .directory => none
    | .file _ =>
        match wayBelow? root place with
        | some way => if d.reaches t root way then some way else none
        | none => none

/-! ## Roots -/

/-- The files that a root stands for. -/
def filesOf (d : Discovery) (t : FileTree) (root : Path) : List Path :=
  let root := t.absolute root
  match t.resolve root with
  | .error _ => []
  | .ok place =>
      match t.get? place with
      | none => []
      | some (.file _) => [root].filter d.accepts
      | some .directory =>
          ((d.walk t place).map fun way => root.join ⟨"/".intercalate way⟩).filter d.accepts

/-- Keep the first of neighbours that name the same steps. -/
def dropRepeats : List Path → List Path
  | [] => []
  | [p] => [p]
  | p :: q :: rest =>
      match dropRepeats (q :: rest) with
      | [] => [p]
      | r :: more => if p.sameSteps r then p :: more else p :: r :: more

/-- Paths in their order, each once. -/
def sorted (paths : List Path) : List Path :=
  dropRepeats (paths.mergeSort fun p q => (compare p q).isLE)

/-- **The files to lint under a list of roots.** -/
def discover (d : Discovery) (t : FileTree) (roots : List Path) : List Path :=
  sorted (roots.flatMap (d.filesOf t))

end Discovery

end SwiftStyle
