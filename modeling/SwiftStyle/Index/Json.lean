import SwiftStyle.Files.Tree
import SwiftStyle.Index.Basic
import SwiftStyle.Json.Parser
import SwiftStyle.Json.Printer

/-!
# Index/Json — an index as a flat JSON object

The fields of the object are names, in their order, and its values are paths. A text with any other
value in it is no index.
-/

namespace SwiftStyle

namespace DeclarationIndex

/-- An index as an object. -/
def toJson (i : DeclarationIndex) : Json :=
  .object (i.entries.map fun (name, path) => (name, .string path))

/-- **The text of an index**, with a line break at its end. -/
def text (i : DeclarationIndex) : String := i.toJson.pretty ++ "\n"

/-- Read an index from an object with strings as values. -/
def ofJson? : Json → Option DeclarationIndex
  | .object fields =>
      (fields.mapM fun (field : String × Json) => field.2.asString?.map (field.1, ·)).map ofList
  | _ => none

/-- **Read an index from its text.** -/
def parse? (text : String) : Option DeclarationIndex := (Json.parse? text).bind ofJson?

/-- What is found where an index should be. -/
inductive Loaded
  | missing
  /-- Something that is no index. -/
  | corrupt
  | loaded (index : DeclarationIndex)

/-- The index that was found. -/
def Loaded.index? : Loaded → Option DeclarationIndex
  | loaded index => some index
  | missing | corrupt => none

/-- **Load the index that a path leads to.** -/
def load (t : FileTree) (path : Path) : Loaded :=
  match t.readText path with
  | .error .notFound => .missing
  | .error _ => .corrupt
  | .ok text =>
      match parse? text with
      | some index => .loaded index
      | none => .corrupt

end DeclarationIndex

end SwiftStyle
