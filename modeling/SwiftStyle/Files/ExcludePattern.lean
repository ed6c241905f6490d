import SwiftStyle.Text.Search
import SwiftStyle.Text.Suffixes

/-!
# Files/ExcludePattern — patterns of paths to leave out

A pattern is matched against the whole text of a path: `?` is any character, `*` any text, `**` any
number of whole steps, and brackets hold a choice of characters. `*` and `?` do not stop at a
separator. In a second test the pattern without its `**` is looked for inside the path.
-/

namespace SwiftStyle

namespace ExcludePattern

/-- An item of a choice in brackets. -/
inductive Choice
  | single (c : Char)
  | range (first last : Char)
deriving DecidableEq, Repr

/-- Whether a character is in a choice. -/
def Choice.holds (c : Char) : Choice → Bool
  | single d => c == d
  | range first last => first ≤ c && c ≤ last

/-- A part of a pattern. -/
inductive Part
  | literal (c : Char)
  | anyCharacter
  | anyText
  /-- Any number of whole steps. -/
  | anySteps
  | oneOf (choices : List Choice)
  | noneOf (choices : List Choice)
deriving DecidableEq, Repr

/-! ## Reading patterns -/

/-- The choices that stand in brackets. -/
def choices : List Char → List Choice
  | [] => []
  | first :: '-' :: last :: rest => .range first last :: choices rest
  | c :: rest => .single c :: choices rest

/-- The choice in brackets after the opening one, and what follows the closing one. The first
character never closes. -/
def bracket? (text : List Char) : Option (Part × List Char) :=
  match text with
  | '!' :: first :: rest =>
      match rest.dropWhile (· != ']') with
      | _ :: after => some (.noneOf (choices (first :: rest.takeWhile (· != ']'))), after)
      | [] => none
  | '!' :: [] => none
  | first :: rest =>
      match rest.dropWhile (· != ']') with
      | _ :: after => some (.oneOf (choices (first :: rest.takeWhile (· != ']'))), after)
      | [] => none
  | [] => none

/-- The parts of a pattern; `none` when it is malformed. `**` stands only for whole steps: it begins
the pattern or follows a separator, and ends the pattern or leads to a separator, which belongs to
it. `fuel` bounds the number of parts, and `atStep` tells whether a step begins here. -/
def parts? : Nat → Bool → List Char → Option (List Part)
  | 0, _, _ => none
  | _, _, [] => some []
  | fuel + 1, atStep, c :: rest =>
      if c == '*' then
        match rest.takeWhile (· == '*') with
        | [] => (parts? fuel false rest).map (.anyText :: ·)
        | [_] =>
            if !atStep then none
            else
              match rest.drop 1 with
              | [] => some [.anySteps]
              | '/' :: rest => (parts? fuel true rest).map (.anySteps :: ·)
              | _ => none
        | _ => none
      else if c == '?' then (parts? fuel false rest).map (.anyCharacter :: ·)
      else if c == '[' then do
        let (part, rest) ← bracket? rest
        (parts? fuel false rest).map (part :: ·)
      else (parts? fuel (c == '/') rest).map (.literal c :: ·)

/-! ## Matching -/

/-- What may be left of a text after any number of whole steps: the text itself, what follows one of
its separators, or nothing. -/
def afterSteps (text : List Char) : List (List Char) :=
  Text.suffixesAfter (· == '/') text ++ [[]]

/-- Whether parts match the whole of a text. -/
def matchesParts : List Part → List Char → Bool
  | [], text => text.isEmpty
  | .anyText :: parts, text => (Text.suffixes text).any (matchesParts parts)
  | .anySteps :: parts, text => (afterSteps text).any (matchesParts parts)
  | .literal d :: parts, text =>
      match text with
      | c :: rest => c == d && matchesParts parts rest
      | [] => false
  | .anyCharacter :: parts, text =>
      match text with
      | _ :: rest => matchesParts parts rest
      | [] => false
  | .oneOf choices :: parts, text =>
      match text with
      | c :: rest => choices.any (Choice.holds c) && matchesParts parts rest
      | [] => false
  | .noneOf choices :: parts, text =>
      match text with
      | c :: rest => !choices.any (Choice.holds c) && matchesParts parts rest
      | [] => false

/-- Whether a pattern matches a text. A malformed pattern matches nothing. -/
def matchesText (pattern text : List Char) : Bool :=
  match parts? (pattern.length + 1) true pattern with
  | some parts => matchesParts parts text
  | none => false

/-- A pattern without its `**`. -/
def withoutSteps : List Char → List Char
  | '*' :: '*' :: rest => withoutSteps rest
  | c :: rest => c :: withoutSteps rest
  | [] => []

/-- Whether the pattern without its `**` stands inside a text. Next to nothing is left of some
patterns, and that is not looked for. -/
def standsInside (pattern text : List Char) : Bool :=
  let needle := withoutSteps pattern
  !needle.isEmpty && needle != ['/'] && Text.contains needle text

/-- **Whether a pattern leaves out a path.** -/
def excludes (pattern path : String) : Bool :=
  matchesText pattern.toList path.toList || standsInside pattern.toList path.toList

end ExcludePattern

end SwiftStyle
