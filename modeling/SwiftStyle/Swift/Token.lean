import SwiftStyle.Source.Lines

/-!
# Swift/Token — the tokens of Swift text

A token carries the white space and comments before it, so that the tokens of a text, written one
after the other, are the text again. A string is not one token: its quotes are brackets, and between
them stand fragments of text and interpolations, which are brackets too.
-/

namespace SwiftStyle.Swift

/-- Lexical classes. -/
inductive TokenKind
  /-- Names and keywords, back-quoted and `$0`-style names, and names after `#`. -/
  | word
  | number
  | operation
  /-- A punctuation character. -/
  | mark
  /-- A bracket or quote that opens, or the start of an interpolation. -/
  | opening
  /-- A bracket or quote that closes, or the end of an interpolation. -/
  | closing
  /-- Characters of a string. -/
  | fragment
  /-- The end of the text. -/
  | finish
deriving DecidableEq, Repr

/-- A token with what stands before it. -/
structure Token where
  kind : TokenKind
  /-- White space and comments between the token before and this one. -/
  gap : List Char
  text : List Char
deriving DecidableEq, Repr

namespace Token

/-- The token as it stands in the text. -/
def characters (t : Token) : List Char := t.gap ++ t.text

/-- Bytes of the token and the gap before it. -/
def width (t : Token) : Nat := byteLength t.characters

/-- Whether the token is a given word, operator, mark or bracket. -/
def reads (t : Token) (text : String) : Bool := t.kind != .fragment && t.text == text.toList

/-- Whether the token is one of several words. -/
def readsOneOf (t : Token) (words : List String) : Bool := words.any t.reads

/-- Whether nothing stands between the token before and this one. -/
def isGlued (t : Token) : Bool := t.gap.isEmpty

/-- Whether a line ends between the token before and this one. -/
def startsLine (t : Token) : Bool := t.gap.contains '\n'

end Token

end SwiftStyle.Swift
