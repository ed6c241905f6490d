import SwiftStyle.Path
import SwiftStyle.Source.Lines
import SwiftStyle.Source.Structure

/-!
# Source/Unit — one source file, ready for the rules

The contents of a file with its line table and structure tree, and the passage from byte offsets to
line and character.
-/

namespace SwiftStyle

/-- A source file as the rules see it. -/
structure SourceUnit where
  /-- Absent for contents that come from no file. -/
  path : Option Path := none
  contents : String
  tree : Node
deriving Repr

/-- A line and a character in it, both counted from 1. -/
structure Position where
  line : Nat
  character : Nat
deriving DecidableEq, Repr

/-- How many characters make up the first `bytes` bytes of a text; `none` when that is not a whole
number of them. -/
def charactersIn? : Nat → List Char → Option Nat
  | 0, _ => some 0
  | _ + 1, [] => none
  | bytes + 1, c :: rest =>
      if bytes + 1 < c.utf8Size then none
      else (charactersIn? (bytes + 1 - c.utf8Size) rest).map (· + 1)

/-- The position of a byte offset in a line table: the last line that begins at or before it, and
the characters up to it. `none` beyond the end and inside a character. -/
def positionIn? (lines : List Line) (offset : Nat) : Option Position := do
  let line ← (lines.takeWhile (·.offset ≤ offset)).getLast?
  let before ← charactersIn? (offset - line.offset) line.raw.characters
  return ⟨line.index, before + 1⟩

namespace SourceUnit

/-- A unit for purely lexical use, with nothing in its structure tree. -/
def ofContents (contents : String) : SourceUnit where
  contents
  tree := Node.fileRoot contents.utf8ByteSize []

/-- The line table. -/
def lines (unit : SourceUnit) : List Line := lineTable unit.contents.toList

/-- **The line and character of a byte offset.** -/
def position? (unit : SourceUnit) (offset : Nat) : Option Position :=
  positionIn? unit.lines offset

/-- The names of the nodes of one kind, in the order of a walk. -/
def trackedNames (unit : SourceUnit) (kind : NodeKind) : List String :=
  (unit.tree.walk.filter (·.kind = kind)).filterMap (·.name)

end SourceUnit

end SwiftStyle
