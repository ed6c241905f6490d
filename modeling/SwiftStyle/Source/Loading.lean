import SwiftStyle.Files.Tree
import SwiftStyle.Source.Unit

/-!
# Source/Loading — from files and texts to source units

An `Extractor` finds the structure of a text. A unit is made from a text, or from the bytes of a file
when they are a text; each of the three ways to fail is a `LoadError`.
-/

namespace SwiftStyle

/-- What finds the structure tree of a text, or gives a message about why it cannot. -/
structure Extractor where
  extract : String → Except String Node

/-- Why there is no unit. -/
inductive LoadError
  | unreadable (path : Path) (cause : FileError)
  | notText (path : Path)
  | rejected (message : String)
deriving DecidableEq, Repr

/-- The wording of a load error. -/
def LoadError.message : LoadError → String
  | unreadable path cause => s!"Failed to read {path.text}: {cause.message}"
  | notText path => s!"{path.text} is not valid UTF-8"
  | rejected message => s!"Structure extraction failed: {message}"

namespace Extractor

/-- The unit of a text. -/
def unitOf (x : Extractor) (path : Option Path) (contents : String) : Except LoadError SourceUnit :=
  match x.extract contents with
  | .ok tree => .ok { path, contents, tree }
  | .error message => .error (.rejected message)

/-- **The unit of a file.** -/
def load (x : Extractor) (t : FileTree) (path : Path) : Except LoadError SourceUnit :=
  match t.read path with
  | .error cause => .error (.unreadable path cause)
  | .ok bytes =>
      match String.fromUTF8? bytes with
      | none => .error (.notText path)
      | some contents => x.unitOf (some path) contents

end Extractor

end SwiftStyle
