import SwiftStyle.Text.Blank

/-!
# Path — file paths, compared component by component

A path is kept as it was written, because that is how it is shown. Two paths are compared through
their `components`: repeated separators, trailing separators and inner `.` do not count, so `a//b`
and `a/./b/` stand at the same place in the order, and `a/b` comes before `a.b`.
-/

namespace SwiftStyle

/-- A file path, as written. -/
structure Path where
  text : String
deriving DecidableEq, Repr, Inhabited

namespace Path

/-- One step of a path. -/
inductive Component
  | root
  | current
  | parent
  | name (text : String)
deriving DecidableEq, Repr

namespace Component

/-- Kinds of component in their order: the root first, names last. -/
def rank : Component → Nat
  | root => 0
  | current => 1
  | parent => 2
  | name _ => 3

/-- A component as it is written. -/
def text : Component → String
  | root => "/"
  | current => "."
  | parent => ".."
  | name text => text

instance : Ord Component where
  compare a b := (compare a.rank b.rank).then (compare a.text b.text)

/-- The component that a piece between two separators stands for; `none` when it stands for
nothing. -/
def ofPiece? (piece : List Char) : Option Component :=
  if piece = [] ∨ piece = ['.'] then none
  else if piece = ['.', '.'] then some parent
  else some (name (String.ofList piece))

end Component

/-- The pieces of a path between its separators. -/
def pieces (p : Path) : List (List Char) := Text.splitAt (· == '/') p.text.toList

/-- A path that begins with a separator. -/
def isAbsolute (p : Path) : Bool := p.text.toList.head? == some '/'

/-- The steps of a path. A `.` counts only as the first step of a relative path. -/
def components (p : Path) : List Component :=
  let steps := p.pieces.filterMap Component.ofPiece?
  if p.isAbsolute then .root :: steps
  else if p.pieces.head? = some ['.'] then .current :: steps
  else steps

/-- Paths in the order of their components. -/
protected def compare (a b : Path) : Ordering := compare a.components b.components

instance : Ord Path := ⟨Path.compare⟩

/-- Paths that name the same sequence of steps. -/
def sameSteps (a b : Path) : Bool := a.components == b.components

/-- The path that is written from a list of steps: names joined by separators after the root. -/
def ofComponents (steps : List Component) : Path :=
  match steps with
  | .root :: rest => ⟨"/" ++ "/".intercalate (rest.map Component.text)⟩
  | _ => ⟨"/".intercalate (steps.map Component.text)⟩

/-- `p` as seen from the directory `base`. An absolute path stands for itself. -/
def join (base p : Path) : Path :=
  if p.isAbsolute then p
  else if base.text.isEmpty || base.text.toList.getLast? == some '/' then ⟨base.text ++ p.text⟩
  else ⟨base.text ++ "/" ++ p.text⟩

/-- **The absolute form of a path**, seen from the directory `directory`: no `.`, no repeated and no
trailing separator. -/
def absolute (directory p : Path) : Path :=
  ofComponents ((directory.join p).components.filter (· ≠ .current))

/-- The path without its last step; `none` for the root and the empty path. -/
def parent? (p : Path) : Option Path :=
  match p.components.getLast? with
  | none | some .root => none
  | some _ => some (ofComponents p.components.dropLast)

/-- The name that a path ends in. -/
def fileName? (p : Path) : Option String :=
  match p.components.getLast? with
  | some (.name text) => some text
  | _ => none

/-- What follows the last dot of a name. A dot that opens the name does not count. -/
def extensionOf? (name : String) : Option String :=
  match (Text.splitAt (· == '.') name.toList).reverse with
  | [] | [_] => none
  | [_, []] => none
  | last :: _ => some (String.ofList last)

/-- The extension of the file that a path names. -/
def extension? (p : Path) : Option String := p.fileName?.bind extensionOf?

end Path

end SwiftStyle
