import SwiftStyle.Json.Value

/-!
# Json/Parser — reading JSON text

The grammar of JSON and nothing more: no trailing commas, no comments, no control characters inside
strings. A code point beyond the basic plane is escaped by two halves next to each other; a half
that stands alone is refused. Values nest up to `depthLimit` levels.
-/

namespace SwiftStyle.Json

/-- How deeply arrays and objects may be nested. -/
def depthLimit : Nat := 127

/-- White space between tokens. -/
def isSpace (c : Char) : Bool := c == ' ' || c == '\n' || c == '\t' || c == '\r'

/-- Cut white space at the front. -/
def skipSpace (text : List Char) : List Char := text.dropWhile isSpace

/-! ## Strings -/

/-- The value of a digit of base 16. -/
def hexValue? (c : Char) : Option Nat :=
  if '0' ≤ c && c ≤ '9' then some (c.toNat - 48)
  else if 'a' ≤ c && c ≤ 'f' then some (c.toNat - 87)
  else if 'A' ≤ c && c ≤ 'F' then some (c.toNat - 55)
  else none

/-- A piece of a string: a character, or the number of an escape that may be half of one. -/
inductive Piece
  | character (c : Char)
  | unit (n : Nat)
deriving DecidableEq, Repr

/-- The character of a one-letter escape. -/
def simpleEscape? : Char → Option Char
  | '\"' => some '\"'
  | '\\' => some '\\'
  | '/' => some '/'
  | 'b' => some '\x08'
  | 'f' => some '\x0c'
  | 'n' => some '\n'
  | 'r' => some '\r'
  | 't' => some '\t'
  | _ => none

/-- The pieces of a string up to its closing quote, and what follows the quote. -/
def pieces? : List Char → Option (List Piece × List Char)
  | [] => none
  | '\"' :: rest => some ([], rest)
  | '\\' :: 'u' :: a :: b :: c :: d :: rest => do
      let n := (((← hexValue? a) * 16 + (← hexValue? b)) * 16 + (← hexValue? c)) * 16
        + (← hexValue? d)
      let (more, after) ← pieces? rest
      return (.unit n :: more, after)
  | '\\' :: e :: rest => do
      let c ← simpleEscape? e
      let (more, after) ← pieces? rest
      return (.character c :: more, after)
  | c :: rest =>
      if c.toNat < 0x20 || c == '\\' then none
      else do
        let (more, after) ← pieces? rest
        return (.character c :: more, after)

/-- The characters of a string: halves are joined, and none is left over. -/
def joinPieces? : List Piece → Option (List Char)
  | [] => some []
  | .character c :: rest => (joinPieces? rest).map (c :: ·)
  | .unit high :: .unit low :: rest =>
      if 0xD800 ≤ high && high < 0xDC00 then
        if 0xDC00 ≤ low && low < 0xE000 then
          (joinPieces? rest).map
            (Char.ofNat (0x10000 + (high - 0xD800) * 0x400 + (low - 0xDC00)) :: ·)
        else none
      else if 0xDC00 ≤ high && high < 0xE000 then none
      else (joinPieces? (.unit low :: rest)).map (Char.ofNat high :: ·)
  | .unit n :: rest =>
      if 0xD800 ≤ n && n < 0xE000 then none else (joinPieces? rest).map (Char.ofNat n :: ·)

/-- A string after its opening quote, and what follows its closing quote. -/
def stringTail? (text : List Char) : Option (String × List Char) := do
  let (pieces, rest) ← pieces? text
  let characters ← joinPieces? pieces
  return (String.ofList characters, rest)

/-! ## Numbers -/

/-- The digits at the front of a text, and what follows. -/
def digits (text : List Char) : List Char × List Char :=
  (text.takeWhile Char.isDigit, text.dropWhile Char.isDigit)

/-- The number that decimal digits stand for. -/
def digitsValue (ds : List Char) : Nat := ds.foldl (fun n d => n * 10 + (d.toNat - 48)) 0

/-- A fraction at the front of a text; empty when there is none. -/
def fraction? : List Char → Option (List Char × List Char)
  | '.' :: rest =>
      match digits rest with
      | ([], _) => none
      | (ds, after) => some ('.' :: ds, after)
  | text => some ([], text)

/-- An exponent at the front of a text; empty when there is none. -/
def exponent? : List Char → Option (List Char × List Char)
  | c :: rest =>
      if c == 'e' || c == 'E' then
        let (sign, rest) :=
          match rest with
          | '+' :: r => (['+'], r)
          | '-' :: r => (['-'], r)
          | r => ([], r)
        match digits rest with
        | ([], _) => none
        | (ds, after) => some (c :: sign ++ ds, after)
      else some ([], c :: rest)
  | [] => some ([], [])

/-- A number without its sign. More digits than one begin with no zero. The negative zero is no
integer. -/
def unsigned? (negative : Bool) (text : List Char) : Option (Json × List Char) := do
  let (whole, rest) := digits text
  guard (whole ≠ [] && (whole.head? != some '0' || whole.length == 1))
  let (frac, rest) ← fraction? rest
  let (exp, rest) ← exponent? rest
  let n := digitsValue whole
  if frac.isEmpty && exp.isEmpty && !(negative && n == 0) then
    return (integer (if negative then -(n : Int) else n), rest)
  else
    let sign := if negative then ['-'] else []
    return (decimal (String.ofList (sign ++ whole ++ frac ++ exp)), rest)

/-! ## Values -/

/-- A fixed word at the front of a text. -/
def literal? (word : String) (value : Json) (text : List Char) : Option (Json × List Char) :=
  if word.toList.isPrefixOf text then some (value, text.drop word.length) else none

mutual

/-- A value at the front of a text. `fuel` bounds the number of steps and `depth` the nesting. -/
def value? (fuel depth : Nat) (text : List Char) : Option (Json × List Char) :=
  match fuel with
  | 0 => none
  | fuel + 1 =>
      match skipSpace text with
      | '\"' :: rest => (stringTail? rest).map fun (s, after) => (string s, after)
      | '[' :: rest =>
          match depth with
          | 0 => none
          | depth + 1 =>
              match skipSpace rest with
              | ']' :: after => some (array [], after)
              | _ => (items? fuel depth rest).map fun (is, after) => (array is, after)
      | '\x7b' :: rest =>
          match depth with
          | 0 => none
          | depth + 1 =>
              match skipSpace rest with
              | '\x7d' :: after => some (object [], after)
              | _ => (fields? fuel depth rest).map fun (fs, after) => (object fs, after)
      | '-' :: rest => unsigned? true rest
      | 't' :: rest => literal? "true" (boolean true) ('t' :: rest)
      | 'f' :: rest => literal? "false" (boolean false) ('f' :: rest)
      | 'n' :: rest => literal? "null" null ('n' :: rest)
      | other => unsigned? false other

/-- One or more items up to the closing bracket. -/
def items? (fuel depth : Nat) (text : List Char) : Option (List Json × List Char) :=
  match fuel with
  | 0 => none
  | fuel + 1 => do
      let (item, rest) ← value? fuel depth text
      match skipSpace rest with
      | ',' :: rest =>
          let (items, after) ← items? fuel depth rest
          return (item :: items, after)
      | ']' :: after => return ([item], after)
      | _ => none

/-- One or more fields up to the closing brace. -/
def fields? (fuel depth : Nat) (text : List Char) : Option (List (String × Json) × List Char) :=
  match fuel with
  | 0 => none
  | fuel + 1 =>
      match skipSpace text with
      | '\"' :: rest => do
          let (key, rest) ← stringTail? rest
          match skipSpace rest with
          | ':' :: rest =>
              let (value, rest) ← value? fuel depth rest
              match skipSpace rest with
              | ',' :: rest =>
                  let (fields, after) ← fields? fuel depth rest
                  return ((key, value) :: fields, after)
              | '\x7d' :: after => return ([(key, value)], after)
              | _ => none
          | _ => none
      | _ => none

end

/-- **The value of a text** that holds one value and white space. -/
def parse? (text : String) : Option Json :=
  let characters := text.toList
  match value? (2 * characters.length + 2) depthLimit characters with
  | some (value, rest) => if (skipSpace rest).isEmpty then some value else none
  | none => none

end SwiftStyle.Json
