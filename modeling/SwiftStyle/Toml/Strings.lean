import SwiftStyle.Toml.Lexical

/-!
# Toml/Strings — the four kinds of TOML string

Basic strings have escapes and literal strings have none; both may span lines when they are opened
by three quotes. Inside such a string a line break counts as `\n` however it is written, and up to
two quotes may stand before the closing three.
-/

namespace SwiftStyle.Toml

/-- The value of a digit of base 16. -/
def hexValue? (c : Char) : Option Nat :=
  if '0' ≤ c && c ≤ '9' then some (c.toNat - 48)
  else if 'a' ≤ c && c ≤ 'f' then some (c.toNat - 87)
  else if 'A' ≤ c && c ≤ 'F' then some (c.toNat - 55)
  else none

/-- The number that digits of base 16 stand for. -/
def hexNumber? (digits : List Char) : Option Nat :=
  digits.foldlM (fun n c => (hexValue? c).map (16 * n + ·)) 0

/-- The character of a code point; halves of pairs and larger numbers are none. -/
def character? (n : Nat) : Option Char :=
  if n < 0xD800 || (0xDFFF < n && n < 0x110000) then some (Char.ofNat n) else none

/-- The character of an escape, after its backslash. -/
def escape? : Reader Char
  | 'b' :: rest => some ('\x08', rest)
  | 't' :: rest => some ('\t', rest)
  | 'n' :: rest => some ('\n', rest)
  | 'f' :: rest => some ('\x0c', rest)
  | 'r' :: rest => some ('\r', rest)
  | '\"' :: rest => some ('\"', rest)
  | '\\' :: rest => some ('\\', rest)
  | 'u' :: a :: b :: c :: d :: rest => do
      return (← character? (← hexNumber? [a, b, c, d]), rest)
  | 'U' :: a :: b :: c :: d :: e :: f :: g :: h :: rest => do
      return (← character? (← hexNumber? [a, b, c, d, e, f, g, h]), rest)
  | _ => none

/-- Put a character in front of what a reader has read. -/
def push (c : Char) (r : List Char × List Char) : List Char × List Char := (c :: r.1, r.2)

/-- Skip blanks and line breaks. -/
def skipWhite : List Char → List Char
  | ' ' :: rest => skipWhite rest
  | '\t' :: rest => skipWhite rest
  | '\n' :: rest => skipWhite rest
  | '\r' :: '\n' :: rest => skipWhite rest
  | text => text

/-- What follows a backslash that ends a line: the line break and all white space after it count for
nothing. -/
def continuation? (text : List Char) : Option (List Char) :=
  (newline? (skipSpace text)).map skipWhite

/-- The end of a string of several lines, when the text begins with three quotes or more: the last
three end it, and up to two before them belong to it. -/
def closing? (quote : Char) : Reader (List Char) := fun text =>
  let count := (text.takeWhile (· == quote)).length
  if count < 3 then none
  else
    let inside := min (count - 3) 2
    some (List.replicate inside quote, text.drop (inside + 3))

/-- The character at the front of a string of a kind: a line break counts as one in a string of
several lines. -/
def stringCharacter? (multiline : Bool) : Reader Char
  | [] => none
  | c :: rest =>
      match if multiline then newline? (c :: rest) else none with
      | some after => some ('\n', after)
      | none => if isPlain c then some (c, rest) else none

/-- The contents of a basic string after its opening quotes; `fuel` bounds the number of steps. -/
def basicTail? (multiline : Bool) : Nat → Reader (List Char)
  | 0, _ => none
  | fuel + 1, text =>
      match text with
      | '\\' :: rest =>
          match if multiline then continuation? rest else none with
          | some after => basicTail? multiline fuel after
          | none => do
              let (c, after) ← escape? rest
              (basicTail? multiline fuel after).map (push c)
      | '\"' :: rest =>
          if multiline then
            (closing? '\"' text).or ((basicTail? multiline fuel rest).map (push '\"'))
          else some ([], rest)
      | _ => do
          let (c, after) ← stringCharacter? multiline text
          (basicTail? multiline fuel after).map (push c)

/-- The contents of a literal string after its opening quotes; `fuel` bounds the number of steps. -/
def literalTail? (multiline : Bool) : Nat → Reader (List Char)
  | 0, _ => none
  | fuel + 1, text =>
      match text with
      | '\x27' :: rest =>
          if multiline then
            (closing? '\x27' text).or ((literalTail? multiline fuel rest).map (push '\x27'))
          else some ([], rest)
      | _ => do
          let (c, after) ← stringCharacter? multiline text
          (literalTail? multiline fuel after).map (push c)

/-- Skip the line break that may follow three opening quotes. -/
def skipFirstBreak (text : List Char) : List Char := (newline? text).getD text

/-- A string of one line, with either kind of quotes. -/
def shortString? : Reader String := fun text =>
  let asString := fun (r : List Char × List Char) => (String.ofList r.1, r.2)
  match text with
  | '\"' :: rest => (basicTail? false (rest.length + 1) rest).map asString
  | '\x27' :: rest => (literalTail? false (rest.length + 1) rest).map asString
  | _ => none

/-- **A string of any kind.** -/
def string? : Reader String := fun text =>
  let asString := fun (r : List Char × List Char) => (String.ofList r.1, r.2)
  match text with
  | '\"' :: '\"' :: '\"' :: rest =>
      (basicTail? true (rest.length + 1) (skipFirstBreak rest)).map asString
  | '\x27' :: '\x27' :: '\x27' :: rest =>
      (literalTail? true (rest.length + 1) (skipFirstBreak rest)).map asString
  | _ => shortString? text

end SwiftStyle.Toml
