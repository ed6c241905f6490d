import SwiftStyle.Swift.SyntaxTree

/-!
# Swift/Vocabulary — the words of Swift that the parser looks at

Classes of keywords, and simple questions about an item: a token, or a group between brackets.
-/

namespace SwiftStyle.Swift

namespace SyntaxTree

/-- The first token of an item. -/
def lead? : SyntaxTree → Option Token
  | token t => some t
  | bracketed opening _ _ => some opening
  | _ => none

/-- Whether an item is a given token. -/
def reads (item : SyntaxTree) (text : String) : Bool :=
  match item with
  | token t => t.reads text
  | _ => false

/-- Whether an item is one of several tokens. -/
def readsOneOf (item : SyntaxTree) (texts : List String) : Bool := texts.any item.reads

/-- Whether an item is a group that opens with a given bracket. -/
def opens (item : SyntaxTree) (bracket : String) : Bool :=
  match item with
  | bracketed opening _ _ => opening.text == bracket.toList
  | _ => false

/-- Whether an item is a group in braces. -/
def isBraced (item : SyntaxTree) : Bool := item.opens "\x7b"

/-- Whether an item is a group in parentheses. -/
def isParenthesised (item : SyntaxTree) : Bool := item.opens "("

/-- Whether an item is a token of a kind. -/
def isToken (item : SyntaxTree) (kind : TokenKind) : Bool :=
  match item with
  | token t => t.kind == kind
  | _ => false

/-- Whether an item begins a line. -/
def startsLine (item : SyntaxTree) : Bool := item.lead?.any Token.startsLine

/-- Whether an item stands directly after the one before it. -/
def isGlued (item : SyntaxTree) : Bool := item.lead?.any Token.isGlued

/-- The words that introduce members other than types and functions. -/
def isMemberKeyword (item : SyntaxTree) : Bool :=
  item.readsOneOf
    ["var", "let", "init", "deinit", "subscript", "typealias", "associatedtype", "case", "import",
      "operator", "precedencegroup"]

/-- The words that introduce types, apart from `actor`, which is a word of its own elsewhere. -/
def isTypeKeyword (item : SyntaxTree) : Bool :=
  item.readsOneOf ["protocol", "class", "struct", "enum", "extension"]

/-- The words that begin statements and hence no closure header. -/
def isStatementKeyword (item : SyntaxTree) : Bool :=
  item.isMemberKeyword || item.isTypeKeyword
    || item.readsOneOf
      ["if", "guard", "while", "switch", "for", "repeat", "do", "defer", "return", "throw", "break",
        "continue", "fallthrough", "default", "else", "func", "try", "await"]

/-- Words that cannot be part of an expression's chain unless a dot stands before them: keywords,
and the words that begin with `#`. -/
def isReserved (item : SyntaxTree) : Bool :=
  item.isStatementKeyword
    || item.readsOneOf
      ["catch", "in", "is", "as", "where", "inout", "throws", "rethrows", "some", "any", "static",
        "private", "fileprivate", "internal", "public", "nonisolated", "unowned"]
    || match item with
      | token t => t.kind == .word && t.text.head? == some '#'
      | _ => false

/-- Words that may stand before the keyword of a declaration. -/
def isModifier (item : SyntaxTree) : Bool :=
  item.readsOneOf
    ["public", "private", "internal", "fileprivate", "open", "package", "final", "static",
      "override", "required", "convenience", "lazy", "dynamic", "optional", "weak", "unowned",
      "mutating", "nonmutating", "indirect", "prefix", "postfix", "infix", "nonisolated",
      "distributed", "consuming", "borrowing", "isolated", "async"]

/-- Words that introduce the parts of a computed property. -/
def isAccessor (item : SyntaxTree) : Bool :=
  item.readsOneOf ["get", "set", "willSet", "didSet", "_read", "_modify"]

/-- Whether a word can be a name, a callee or the like. -/
def isName (item : SyntaxTree) : Bool := item.isToken .word && !item.isReserved

end SyntaxTree

end SwiftStyle.Swift
