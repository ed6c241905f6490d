import SwiftStyle.Toml.Document
import SwiftStyle.Toml.Moments
import SwiftStyle.Toml.Numbers
import SwiftStyle.Toml.Strings

/-!
# Toml/Parser — reading TOML documents

`parse?` reads a document line by line: headers, and keys with their values. Arrays and tables inside
values are nested, and keys are dotted, fewer than `depthLimit` times.
-/

namespace SwiftStyle.Toml

/-- The depth that nested values and dotted keys stay below. -/
def depthLimit : Nat := 80

/-! ## Keys -/

/-- A name: quoted, or of key characters. -/
def name? : Reader String := fun text =>
  match text with
  | '\"' :: _ | '\x27' :: _ => shortString? text
  | _ =>
      let name := text.takeWhile isKeyCharacter
      if name.isEmpty then none else some (String.ofList name, text.dropWhile isKeyCharacter)

/-- Names with dots between them, blanks around them; `fuel` bounds their number. -/
def names? : Nat → Reader (List String)
  | 0, _ => none
  | fuel + 1, text => do
      let (name, rest) ← name? (skipSpace text)
      match skipSpace rest with
      | '.' :: rest =>
          let (names, rest) ← names? fuel rest
          return (name :: names, rest)
      | rest => return ([name], rest)

/-- A dotted key: the names before the last, and the last. -/
def key? : Reader (List String × String) := fun text => do
  let (names, rest) ← names? depthLimit text
  if names.length < depthLimit then return ((names.dropLast, ← names.getLast?), rest) else none

/-! ## Values -/

/-- A truth value. -/
def boolean? : Reader Value
  | 't' :: 'r' :: 'u' :: 'e' :: rest => some (.boolean true, rest)
  | 'f' :: 'a' :: 'l' :: 's' :: 'e' :: rest => some (.boolean false, rest)
  | _ => none

/-- A value without parts. -/
def scalar? : Reader Value := fun text =>
  match string? text with
  | some (s, rest) => some (.string s, rest)
  | none =>
      (boolean? text).or <|
        match moment? text with
        | some (m, rest) => some (.moment m, rest)
        | none => (float? text).or (integer? text)

mutual

/-- **A value.** `fuel` bounds the number of steps and `depth` the nesting. -/
def value? (fuel depth : Nat) : Reader Value := fun text =>
  match fuel with
  | 0 => none
  | fuel + 1 =>
      match text with
      | '[' :: rest =>
          match depth with
          | 0 => none
          | depth + 1 => (items? fuel depth rest).map fun (items, after) => (.array items, after)
      | '\x7b' :: rest =>
          match depth with
          | 0 => none
          | depth + 1 =>
              match skipSpace rest with
              | '\x7d' :: after => some (.table [], after)
              | _ =>
                  (pairs? fuel depth [] rest).map fun (entries, after) =>
                    (.table (entriesToTable entries), after)
      | _ => scalar? text

/-- The items of an array up to its closing bracket; a comma may follow the last. -/
def items? (fuel depth : Nat) : Reader (List Value) := fun text =>
  match fuel with
  | 0 => none
  | fuel + 1 =>
      match skipBlank text with
      | ']' :: after => some ([], after)
      | start => do
          let (item, rest) ← value? fuel depth start
          match skipBlank rest with
          | ',' :: rest =>
              let (items, after) ← items? fuel depth rest
              return (item :: items, after)
          | ']' :: after => return ([item], after)
          | _ => none

/-- One or more keys and values up to the closing brace, added to the entries before them. -/
def pairs? (fuel depth : Nat) (entries : Entries) : Reader Entries := fun text =>
  match fuel with
  | 0 => none
  | fuel + 1 => do
      let ((path, key), rest) ← key? text
      let rest ← mark? '=' rest
      let (value, rest) ← value? fuel depth (skipSpace rest)
      let entries ← entries.add path key value
      match skipSpace rest with
      | ',' :: rest => pairs? fuel depth entries rest
      | '\x7d' :: after => return (entries, after)
      | _ => none

end

/-! ## Documents -/

/-- The header at the front of a text. -/
def header? : Reader Header := fun text =>
  match text with
  | '[' :: '[' :: rest => do
      let ((path, name), rest) ← key? rest
      return (⟨path, name, true⟩, ← mark? ']' (← mark? ']' rest))
  | '[' :: rest => do
      let ((path, name), rest) ← key? rest
      return (⟨path, name, false⟩, ← mark? ']' rest)
  | _ => none

/-- The draft with the line at the front of a text, without its end. -/
def line? (d : Draft) : Reader Draft := fun text =>
  match text with
  | [] => some (d, [])
  | c :: _ =>
      if c == '#' || c == '\n' || c == '\r' then some (d, text)
      else if c == '[' then do
        let (header, rest) ← header? text
        return (← d.start header, rest)
      else do
        let ((path, key), rest) ← key? text
        let rest ← mark? '=' rest
        let (value, rest) ← value? (2 * rest.length + 2) (depthLimit - 1) (skipSpace rest)
        return (← d.add path key value, rest)

/-- The draft with all lines of a text; `fuel` bounds their number. -/
def lines? : Nat → Draft → List Char → Option Draft
  | 0, _, _ => none
  | fuel + 1, d, text =>
      match skipSpace text with
      | [] => some d
      | start => do
          let (d, rest) ← line? d start
          lines? fuel d (← lineEnd? rest)

/-- The text without the mark of its byte order. -/
def skipByteOrderMark : List Char → List Char
  | '\ufeff' :: rest => rest
  | text => text

/-- **The table of a document.** -/
def parse? (text : String) : Option Table := do
  let characters := skipByteOrderMark text.toList
  let draft ← lines? (characters.length + 1) {} characters
  return entriesToTable (← draft.finish)

end SwiftStyle.Toml
