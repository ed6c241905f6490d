import SwiftStyle.Swift.Parser
import SwiftStyle.Swift.ParseTree

/-!
# Swift/Grammar — the parse tree of Swift text

The syntax trees of a text are laid out as phrases and tokens at their places. A callee is one
phrase, and what follows it is the suffix of a call, whatever its brackets; a subscript and a callee
with closures alone are call expressions, too.
-/

namespace SwiftStyle.Swift

/-- The kind of phrase that a declaration is. -/
def DeclaredKind.phraseKind : DeclaredKind → PhraseKind
  | protocol => .protocolDeclaration
  | classType | structType | enumType | extension => .typeDeclaration
  | function => .functionDeclaration

/-- The role of the keyword in a declaration. -/
def DeclaredKind.keywordRole? : DeclaredKind → Option Role
  | function => none
  | _ => some .keyword

namespace ParseTree

/-- A token that begins with its gap at byte `offset`. One without characters is left out. -/
def ofToken (role : Option Role) (offset : Nat) (t : Token) : List ParseTree :=
  if t.text.isEmpty then []
  else
    let start := offset + byteLength t.gap
    [token role (String.ofList t.text) ⟨start, start + byteLength t.text⟩]

/-- A phrase over its parts. Without parts there is no phrase. -/
def ofParts (role : Option Role) (kind : PhraseKind) : List ParseTree → List ParseTree
  | [] => []
  | first :: rest =>
      [phrase role kind ⟨first.span.start, (rest.getLastD first).span.stop⟩ (first :: rest)]

end ParseTree

namespace SyntaxTree

open ParseTree

mutual

/-- The phrases and tokens of a tree that begins at byte `offset`. -/
def parseTrees (offset : Nat) : SyntaxTree → List ParseTree
  | token t => ofToken none offset t
  | bracketed opening items closing =>
      let afterOpening := offset + opening.width
      ofParts none .other
        (ofToken none offset opening ++ parseTreesAll afterOpening items
          ++ closing.toList.flatMap (ofToken none (afterOpening + width items)))
  | declaration kind modifiers keyword name rest =>
      let afterModifiers := offset + width modifiers
      let afterKeyword := afterModifiers + keyword.width
      ofParts none kind.phraseKind
        (ofParts none .other (parseTreesAll offset modifiers)
          ++ ofToken kind.keywordRole? afterModifiers keyword
          ++ ofParts (some .name) .other (parseTreesAll afterKeyword name)
          ++ parseTreesAll (afterKeyword + width name) rest)
  | application callee opening arguments closing closures =>
      let afterCallee := offset + width callee
      let afterOpening := afterCallee + opening.width
      let afterArguments := afterOpening + width arguments
      let list :=
        ofParts none .valueArguments
          (ofToken none afterCallee opening ++ parseTreesAll afterOpening arguments
            ++ closing.toList.flatMap (ofToken none afterArguments))
      let afterList := afterArguments + (closing.map Token.width).getD 0
      ofParts none .callExpression
        (ofParts none .other (parseTreesAll offset callee)
          ++ ofParts none .callSuffix (list ++ parseTreesAll afterList closures))
  | closureApplication callee closures =>
      ofParts none .callExpression
        (ofParts none .other (parseTreesAll offset callee)
          ++ ofParts none .callSuffix (parseTreesAll (offset + width callee) closures))
  | argument [] value => ofParts none .valueArgument (parseTreesAll offset value)
  | argument (label :: more) value =>
      let afterLabel := offset + width [label]
      ofParts none .valueArgument
        (ofParts (some .name) .other (parseTrees offset label) ++ parseTreesAll afterLabel more
          ++ parseTreesAll (afterLabel + width more) value)

/-- The phrases and tokens of a list of trees that begins at byte `offset`. -/
def parseTreesAll (offset : Nat) : List SyntaxTree → List ParseTree
  | [] => []
  | tree :: rest => parseTrees offset tree ++ parseTreesAll (offset + width [tree]) rest

end

end SyntaxTree

/-- **The parse tree of a text.** -/
def parseTree (contents : String) : ParseTree :=
  .phrase none .other ⟨0, contents.utf8ByteSize⟩
    (SyntaxTree.parseTreesAll 0 (parse contents.toList))

end SwiftStyle.Swift
