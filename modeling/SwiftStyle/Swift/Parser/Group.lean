import SwiftStyle.Swift.Vocabulary

/-!
# Swift/Parser/Group — what stands between brackets

The parser gives shape to a list of items in a `Context`: the site of the items and what
the items before them expect. The functions here shape single groups; they take the shaping of lists
as an argument.
-/

namespace SwiftStyle.Swift

/-- Where a list of items stands. -/
inductive Site
  /-- Statements and members. -/
  | block
  /-- The parts of a computed property. -/
  | accessors
  /-- The body of an enumeration. -/
  | enumBody
  /-- Between parentheses or square brackets. -/
  | list
deriving DecidableEq, Repr

/-- The surroundings of the items to be shaped. -/
structure Context where
  site : Site
  /-- Whether a brace may be a closure; otherwise the next one is the body of a statement. -/
  closures : Bool := true
  /-- Whether the items are a pattern. -/
  pattern : Bool := false
  /-- Whether a comma leads to another pattern. -/
  patternList : Bool := false
deriving DecidableEq, Repr

/-- A function that shapes lists of items. -/
abbrev Shaper := Context → List SyntaxTree → List SyntaxTree

namespace SyntaxTree

/-- Whether an item may stand in the header of a closure. -/
def isHeaderItem (item : SyntaxTree) : Bool :=
  match item with
  | token t =>
      (t.kind == .word && !item.isStatementKeyword) || t.kind == .mark
        || item.readsOneOf ["->", "?", "!", "&", "<", ">", "=", "..."]
  | bracketed _ _ _ => item.isParenthesised || item.opens "["
  | _ => false

/-- The header of a closure, up to its `in`, and what follows it; empty when there is none. -/
def closureHeader : List SyntaxTree → List SyntaxTree × List SyntaxTree
  | [] => ([], [])
  | item :: rest =>
      if item.reads "in" then ([item], rest)
      else if item.isHeaderItem then
        match closureHeader rest with
        | ([], _) => ([], item :: rest)
        | (header, body) => (item :: header, body)
      else ([], item :: rest)

/-- Whether a block begins with a part of a computed property that has a body. -/
def startsAccessors : List SyntaxTree → Bool
  | [] => false
  | item :: rest =>
      if item.readsOneOf ["mutating", "nonmutating"] then startsAccessors rest
      else item.isAccessor &&
        match rest with
        | first :: second :: _ => first.isBraced || (first.isParenthesised && second.isBraced)
        | [first] => first.isBraced
        | [] => false

/-- The items of a group with its brackets. -/
def mapItems (f : List SyntaxTree → List SyntaxTree) : SyntaxTree → SyntaxTree
  | bracketed opening items closing => bracketed opening (f items) closing
  | other => other

/-- Whether a brace holds observers or other parts of a property. -/
def holdsAccessors : SyntaxTree → Bool
  | bracketed _ items _ => startsAccessors items
  | _ => false

end SyntaxTree

namespace Shaper

variable (shape : Shaper)

/-- Shape a group in parentheses, square brackets or quotes. -/
def list (item : SyntaxTree) : SyntaxTree := item.mapItems (shape { site := .list })

/-- Shape a group of patterns. -/
def patterns (item : SyntaxTree) : SyntaxTree :=
  item.mapItems (shape { site := .list, pattern := true, patternList := true })

/-- Shape a group in braces that stands at a site: the header of a closure is no
expression. -/
def body (site : Site) (item : SyntaxTree) : SyntaxTree :=
  item.mapItems fun items =>
    let (header, body) := SyntaxTree.closureHeader items
    let site := if SyntaxTree.startsAccessors body then .accessors else site
    header.map shape.list ++ shape { site } body

/-- Shape a group, whatever its brackets. -/
def group (item : SyntaxTree) : SyntaxTree :=
  if item.isBraced then shape.body .block item else shape.list item

end Shaper

end SwiftStyle.Swift
