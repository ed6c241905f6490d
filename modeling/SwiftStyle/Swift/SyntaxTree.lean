import SwiftStyle.Swift.Token

/-!
# Swift/SyntaxTree — concrete syntax of Swift

A syntax tree keeps every token of the text, so the text, and with it every offset, can be read off
the tree. It tells apart what the structure tree of a file is made of: declarations, applications
(calls, subscripts, and functions with a closure alone) and call arguments. All else is a list of
tokens and bracketed groups.
-/

namespace SwiftStyle.Swift

/-- The declarations that a structure tree shows. -/
inductive DeclaredKind
  | protocol
  | classType
  | structType
  | enumType
  | extension
  | function
deriving DecidableEq, Repr

/-- Concrete syntax. -/
inductive SyntaxTree where
  | token (t : Token)
  /-- A group between brackets or quotes; the closing one may be missing at the end of the text. -/
  | bracketed (opening : Token) (items : List SyntaxTree) (closing : Option Token)
  /-- A declaration: attributes and modifiers, the keyword, the name, and all that follows. -/
  | declaration (kind : DeclaredKind) (modifiers : List SyntaxTree) (keyword : Token)
      (name rest : List SyntaxTree)
  /-- A callee with a bracketed list and the closures after it. -/
  | application (callee : List SyntaxTree) (opening : Token) (arguments : List SyntaxTree)
      (closing : Option Token) (closures : List SyntaxTree)
  /-- A callee with closures alone. -/
  | closureApplication (callee closures : List SyntaxTree)
  /-- An argument of a call: its label, if it has one, and its value. -/
  | argument (label value : List SyntaxTree)
deriving Repr

namespace SyntaxTree

mutual

/-- The tokens of a tree, in the order of the text. -/
def leaves : SyntaxTree → List Token
  | token t => [t]
  | bracketed opening items closing => opening :: leavesAll items ++ closing.toList
  | declaration _ modifiers keyword name rest =>
      leavesAll modifiers ++ keyword :: leavesAll name ++ leavesAll rest
  | application callee opening arguments closing closures =>
      leavesAll callee ++ opening :: leavesAll arguments ++ closing.toList ++ leavesAll closures
  | closureApplication callee closures => leavesAll callee ++ leavesAll closures
  | argument label value => leavesAll label ++ leavesAll value

/-- The tokens of a list of trees. -/
def leavesAll : List SyntaxTree → List Token
  | [] => []
  | tree :: rest => tree.leaves ++ leavesAll rest

end

/-- The characters of a list of trees, gaps included. -/
def characters (trees : List SyntaxTree) : List Char := (leavesAll trees).flatMap Token.characters

/-- Bytes of a list of trees, gaps included. -/
def width (trees : List SyntaxTree) : Nat := byteLength (characters trees)

@[simp] theorem leavesAll_nil : leavesAll [] = [] := by rw [leavesAll]

@[simp] theorem leavesAll_cons (tree : SyntaxTree) (rest : List SyntaxTree) :
    leavesAll (tree :: rest) = tree.leaves ++ leavesAll rest := by rw [leavesAll]

@[simp] theorem leavesAll_append (a b : List SyntaxTree) :
    leavesAll (a ++ b) = leavesAll a ++ leavesAll b := by
  induction a with
  | nil => simp
  | cons tree rest ih => simp [ih]

end SyntaxTree

end SwiftStyle.Swift
