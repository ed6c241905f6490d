/-!
# Source/Lines — the line table

A text is cut into lines at `\n` and at `\r\n`; a lone `\r` stays inside its line. `cutLines` keeps
each line with its ending, so that nothing is lost, and `lineTable` numbers the lines and gives the
byte offset at which each begins.
-/

namespace SwiftStyle

/-- Bytes that a text takes in UTF-8. -/
def byteLength : List Char → Nat
  | [] => 0
  | c :: text => c.utf8Size + byteLength text

/-- What ends a line. -/
inductive LineEnding
  | none
  | newline
  | returnNewline
deriving DecidableEq, Repr

/-- The characters of a line ending. -/
def LineEnding.characters : LineEnding → List Char
  | none => []
  | newline => ['\n']
  | returnNewline => ['\r', '\n']

/-- A line of text and its ending. -/
structure RawLine where
  text : List Char
  ending : LineEnding
deriving DecidableEq, Repr

/-- The line as it stands in the text. -/
def RawLine.characters (l : RawLine) : List Char := l.text ++ l.ending.characters

/-- Cut a text into lines. A final ending opens no further line. -/
def cutLines : List Char → List RawLine
  | [] => []
  | '\n' :: rest => ⟨[], .newline⟩ :: cutLines rest
  | '\r' :: '\n' :: rest => ⟨[], .returnNewline⟩ :: cutLines rest
  | c :: rest =>
      match cutLines rest with
      | [] => [⟨[c], .none⟩]
      | line :: lines => ⟨c :: line.text, line.ending⟩ :: lines

/-- A line of the table. -/
structure Line where
  /-- Counted from 1. -/
  index : Nat
  /-- Byte offset of the first character. -/
  offset : Nat
  /-- The line with its ending. -/
  raw : RawLine
deriving DecidableEq, Repr

/-- The text of a line, without its ending. -/
def Line.text (l : Line) : List Char := l.raw.text

/-- Number lines from `index`, the first of them beginning at byte `offset`. -/
def numberLines : Nat → Nat → List RawLine → List Line
  | _, _, [] => []
  | index, offset, raw :: rest =>
      ⟨index, offset, raw⟩ :: numberLines (index + 1) (offset + byteLength raw.characters) rest

/-- **The line table of a text.** -/
def lineTable (contents : List Char) : List Line := numberLines 1 0 (cutLines contents)

/-- **Cutting into lines loses nothing.** -/
theorem flatMap_cutLines (contents : List Char) :
    (cutLines contents).flatMap RawLine.characters = contents := by
  fun_induction cutLines contents with
  | case1 => rfl
  | case2 rest ih => simp [RawLine.characters, LineEnding.characters, ih]
  | case3 rest ih => simp [RawLine.characters, LineEnding.characters, ih]
  | case4 c rest _ _ h ih => simpa [h, RawLine.characters, LineEnding.characters] using ih
  | case5 c rest _ _ line lines h ih =>
      simpa [h, RawLine.characters] using ih

@[simp] theorem length_numberLines (index offset : Nat) (raws : List RawLine) :
    (numberLines index offset raws).length = raws.length := by
  induction raws generalizing index offset with
  | nil => rfl
  | cons raw rest ih => simp [numberLines, ih]

end SwiftStyle
