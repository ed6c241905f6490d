import SwiftStyle.Json.Value

/-!
# Json/Printer — JSON text over several lines

Each item of an array and each field of an object stands on a line of its own, indented by two
spaces for each level; an empty array or object is written without a line break. In strings only the
quote, the backslash and the control characters below the space are escaped.
-/

namespace SwiftStyle.Json

/-- A digit of base 16, in lower case. -/
def hexDigit (n : Nat) : Char := if n < 10 then Char.ofNat (48 + n) else Char.ofNat (87 + n)

/-- A character as it stands in a string. -/
def escape (c : Char) : List Char :=
  match c.toNat with
  | 0x22 => ['\\', '\"']
  | 0x5C => ['\\', '\\']
  | 0x8 => ['\\', 'b']
  | 0x9 => ['\\', 't']
  | 0xA => ['\\', 'n']
  | 0xC => ['\\', 'f']
  | 0xD => ['\\', 'r']
  | n => if n < 0x20 then ['\\', 'u', '0', '0', hexDigit (n / 16), hexDigit (n % 16)] else [c]

/-- A quoted string. -/
def quote (text : String) : List Char := '\"' :: text.toList.flatMap escape ++ ['\"']

/-- A line break and the indentation of a level. -/
def newLine (level : Nat) : List Char := '\n' :: List.replicate (2 * level) ' '

mutual

/-- A value as it is written at a level of indentation. -/
def print (level : Nat) : Json → List Char
  | null => "null".toList
  | boolean true => "true".toList
  | boolean false => "false".toList
  | integer i => (toString i).toList
  | decimal text => text.toList
  | string text => quote text
  | array [] => "[]".toList
  | array (item :: items) =>
      '[' :: newLine (level + 1) ++ print (level + 1) item ++ printItems (level + 1) items
        ++ newLine level ++ [']']
  | object [] => ['\x7b', '\x7d']
  | object ((key, value) :: fields) =>
      '\x7b' :: newLine (level + 1) ++ quote key ++ [':', ' '] ++ print (level + 1) value
        ++ printFields (level + 1) fields ++ newLine level ++ ['\x7d']

/-- The items of an array after its first. -/
def printItems (level : Nat) : List Json → List Char
  | [] => []
  | item :: items => ',' :: newLine level ++ print level item ++ printItems level items

/-- The fields of an object after its first. -/
def printFields (level : Nat) : List (String × Json) → List Char
  | [] => []
  | (key, value) :: fields =>
      ',' :: newLine level ++ quote key ++ [':', ' '] ++ print level value
        ++ printFields level fields

end

/-- **The text of a value**, without a final line break. -/
def pretty (j : Json) : String := String.ofList (print 0 j)

end SwiftStyle.Json
