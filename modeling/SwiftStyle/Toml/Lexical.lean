/-!
# Toml/Lexical — characters, gaps and line ends of TOML

A reader takes a text and gives what stands at its front together with the rest, or `none` when
nothing of its kind stands there.
-/

namespace SwiftStyle.Toml

/-- A function that reads a value at the front of a text. -/
abbrev Reader (α : Type) := List Char → Option (α × List Char)

/-- Blanks inside a line. -/
def isSpace (c : Char) : Bool := c == ' ' || c == '\t'

/-- Control characters, which stand nowhere but for tabs and line ends. -/
def isControl (c : Char) : Bool := c.toNat < 0x20 || c.toNat == 0x7F

/-- Characters of comments and of strings that are not escaped. -/
def isPlain (c : Char) : Bool := c == '\t' || !isControl c

/-- Characters of keys without quotes. -/
def isKeyCharacter (c : Char) : Bool := c.isAlphanum || c == '_' || c == '-'

/-- Skip blanks. -/
def skipSpace (text : List Char) : List Char := text.dropWhile isSpace

/-- What follows a line break, if one stands here. -/
def newline? : List Char → Option (List Char)
  | '\n' :: rest => some rest
  | '\r' :: '\n' :: rest => some rest
  | _ => none

/-- What follows a comment, if one stands here; otherwise the text itself. -/
def skipComment : List Char → List Char
  | '#' :: rest => rest.dropWhile isPlain
  | text => text

/-- What follows the end of a line, if nothing but blanks and a comment stand before it. -/
def lineEnd? (text : List Char) : Option (List Char) :=
  match skipComment (skipSpace text) with
  | [] => some []
  | rest => newline? rest

/-- Skip blanks, line breaks and comments. A comment reaches to a line break. -/
def skipBlank : List Char → List Char
  | [] => []
  | ' ' :: rest => skipBlank rest
  | '\t' :: rest => skipBlank rest
  | '\n' :: rest => skipBlank rest
  | '\r' :: '\n' :: rest => skipBlank rest
  | '#' :: rest => inComment rest
  | text => text
where
  /-- Skip a comment whose sign is read, and the blanks after it. -/
  inComment : List Char → List Char
    | [] => []
    | '\n' :: rest => skipBlank rest
    | '\r' :: '\n' :: rest => skipBlank rest
    | c :: rest => if isPlain c then inComment rest else c :: rest

end SwiftStyle.Toml
