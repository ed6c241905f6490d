import SwiftStyle.Swift.Parser.Group

/-!
# Swift/Parser/Declaration — where declarations begin and end

A declaration begins with attributes and modifiers. A type ends with the body in braces; a function
ends with its body, or, when it has none, where its signature ends.
-/

namespace SwiftStyle.Swift

namespace SyntaxTree

/-! ## Attributes and modifiers -/

/-- What a reader of attributes and modifiers has read last. -/
inductive LeadState
  | start
  /-- The sign of an attribute, or a dot in its name. -/
  | sign
  | attribute
  | modifier
deriving DecidableEq, Repr

/-- The number of items that are attributes and, if wanted, modifiers. The word `class` is a modifier
in front of another one or of a member. -/
def leadSpan (modifiers : Bool) : LeadState → List SyntaxTree → Nat
  | _, [] => 0
  | state, item :: rest =>
      let isMember := fun (next : SyntaxTree) =>
        next.isModifier || next.reads "func" || next.isMemberKeyword
      if state = .sign then
        if item.isToken .word then leadSpan modifiers .attribute rest + 1 else 0
      else if state = .attribute && item.isGlued && item.reads "." then
        leadSpan modifiers .sign rest + 1
      else if (state = .attribute || state = .modifier) && item.isGlued && item.isParenthesised then
        leadSpan modifiers .start rest + 1
      else if item.reads "@" then leadSpan modifiers .sign rest + 1
      else if modifiers && (item.isModifier || (item.reads "class" && rest.head?.any isMember)) then
        leadSpan modifiers .modifier rest + 1
      else 0

/-! ## Signatures -/

/-- Whether a signature goes on with an item that begins a line, after the item `last`. -/
def continuesSignature (last : Option SyntaxTree) (item : SyntaxTree) : Bool :=
  item.isBraced || item.isParenthesised
    || item.readsOneOf ["->", "where", "throws", "rethrows", "async", ",", ":", "&", "==", "."]
    || last.any (·.readsOneOf ["->", ",", ":", "==", "&", "where", ".", "<"])

/-- The signature of a function, with its body if it has one, and what follows. -/
def signature : Option SyntaxTree → List SyntaxTree → List SyntaxTree × List SyntaxTree
  | _, [] => ([], [])
  | last, item :: rest =>
      if item.isBraced then ([item], rest)
      else if item.reads ";" || item.isToken .finish || item.isMemberKeyword || item.reads "func"
          || (item.startsLine && !continuesSignature last item) then ([], item :: rest)
      else
        let (more, after) := signature (some item) rest
        (item :: more, after)

/-- The header of a type and its body, and what follows; `none` without a body. -/
def typeBody? : List SyntaxTree → Option (List SyntaxTree × List SyntaxTree)
  | [] => none
  | item :: rest =>
      if item.isBraced then some ([item], rest)
      else if item.reads ";" then none
      else (typeBody? rest).map fun (more, after) => (item :: more, after)

/-- The cases after the word `case` in an enumeration, and what follows: they end at a semicolon, at
another member, and where a line begins that no comma leads to. -/
def enumCases : Option SyntaxTree → List SyntaxTree → List SyntaxTree × List SyntaxTree
  | _, [] => ([], [])
  | last, item :: rest =>
      if item.reads ";" || item.isToken .finish || item.isMemberKeyword || item.reads "func"
          || (item.startsLine && last.isSome && !item.reads "," && !last.any (·.reads ",")) then
        ([], item :: rest)
      else
        let (more, after) := enumCases (some item) rest
        (item :: more, after)

/-- The kind of type that a keyword declares. -/
def typeKind? (item : SyntaxTree) : Option DeclaredKind :=
  if item.reads "protocol" then some .protocol
  else if item.reads "class" || item.reads "actor" then some .classType
  else if item.reads "struct" then some .structType
  else if item.reads "enum" then some .enumType
  else if item.reads "extension" then some .extension
  else none

/-- The name of an extension: everything up to its conformances, conditions or body. -/
def extensionName (items : List SyntaxTree) : List SyntaxTree :=
  items.takeWhile fun item => !(item.reads ":" || item.reads "where" || item.isBraced)

/-- The name of a function: a word, or an operator. -/
def functionName (items : List SyntaxTree) : List SyntaxTree :=
  match items with
  | item :: rest =>
      if item.isToken .operation then
        item :: rest.takeWhile fun next => next.isToken .operation && next.isGlued
      else [item]
  | [] => []

end SyntaxTree

namespace Shaper

open SyntaxTree

variable (shape : Shaper)

/-- A type whose keyword is read, and what follows it. -/
def typeDeclaration? (modifiers : List SyntaxTree) (kind : DeclaredKind) (keyword : Token)
    (items : List SyntaxTree) : Option (SyntaxTree × List SyntaxTree) := do
  let name := if kind = .extension then extensionName items else items.take 1
  let (rest, after) ← typeBody? (items.drop name.length)
  let site := if kind = .enumType then Site.enumBody else .block
  let shaped := rest.map fun item => if item.isBraced then shape.body site item else shape.list item
  return (.declaration kind (modifiers.map shape.list) keyword name shaped, after)

/-- A function whose keyword is read, and what follows it. -/
def functionDeclaration (modifiers : List SyntaxTree) (keyword : Token)
    (items : List SyntaxTree) : SyntaxTree × List SyntaxTree :=
  let name := functionName items
  let (rest, after) := signature none (items.drop name.length)
  (.declaration .function (modifiers.map shape.list) keyword name (rest.map shape.group), after)

/-- Whether `actor` in front of items is the keyword of a type. -/
def isActor (items : List SyntaxTree) : Bool :=
  match items with
  | name :: _ => name.isName && !name.startsLine
  | [] => false

/-- **A declaration in front of items**, and what follows it. -/
def declaration? (items : List SyntaxTree) : Option (SyntaxTree × List SyntaxTree) :=
  let span := leadSpan true .start items
  let modifiers := items.take span
  match items.drop span with
  | item :: rest =>
      match item with
      | .token keyword =>
          if keyword.reads "func" then some (shape.functionDeclaration modifiers keyword rest)
          else if item.reads "actor" && !isActor rest then none
          else (typeKind? item).bind fun kind => shape.typeDeclaration? modifiers kind keyword rest
      | _ => none
  | [] => none

end Shaper

end SwiftStyle.Swift
