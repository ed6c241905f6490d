import SwiftStyle.Text.Suffixes

/-!
# Files/IgnoreGlob — patterns of ignore files

A pattern is matched against the bytes of a path relative to the ignore file. `?` and `*` stop at a
separator, and `**` between separators stands for any number of steps. Braces hold alternatives,
brackets hold choices of characters, and a backslash takes the next character as it is.
-/

namespace SwiftStyle

namespace IgnoreGlob

/-- A part of a pattern, once alternatives are taken apart. -/
inductive Atom
  | byte (b : UInt8)
  /-- Any byte but the separator. -/
  | anyByte
  /-- Any bytes but separators. -/
  | anyRun
  /-- A byte inside one of several ranges, or outside all of them. -/
  | oneOf (negated : Bool) (ranges : List (UInt8 × UInt8))
  /-- Any number of steps before what follows. -/
  | leadingSteps
  /-- A separator and anything after it. -/
  | trailingSteps
  /-- One or more separators with any steps between them. -/
  | innerSteps
deriving DecidableEq, Repr

/-- A part of a pattern. -/
inductive Part where
  | atom (a : Atom)
  | alternatives (branches : List (List Part))
deriving Repr

/-- The separator of steps. -/
def separator : UInt8 := 47

/-- The bytes of a character. -/
def bytesOf (c : Char) : List UInt8 := (String.singleton c).toUTF8.toList

/-! ## Reading patterns -/

/-- The bytes that a choice of a range of characters stands for: a range is taken from the last byte of
its first character to the first byte of its last. -/
def rangeBytes (first last : Char) : List (UInt8 × UInt8) :=
  let single := fun (b : UInt8) => (b, b)
  if first = last then (bytesOf first).map single
  else
    (bytesOf first).dropLast.map single
      ++ [((bytesOf first).getLast?.getD 0, (bytesOf last).head?.getD 0)]
      ++ (bytesOf last).tail.map single

/-- Change the end of the last range; `none` when it would come before the start. -/
def stretchLast? (ranges : List (Char × Char)) (last : Char) : Option (List (Char × Char)) :=
  match ranges.getLast? with
  | some (first, _) => if first ≤ last then some (ranges.dropLast ++ [(first, last)]) else none
  | none => none

/-- The ranges in brackets, up to the closing one, and what follows. `inRange` tells that a hyphen
stands open. The first character never closes. -/
def ranges? : Bool → List (Char × Char) → List Char → Option (List (Char × Char) × List Char)
  | _, _, [] => none
  | inRange, found, c :: rest =>
      if c == ']' && !found.isEmpty then
        some (if inRange then found ++ [('-', '-')] else found, rest)
      else if inRange then do
        let found ← stretchLast? found c
        ranges? false found rest
      else if c == '-' && !found.isEmpty then ranges? true found rest
      else ranges? false (found ++ [(c, c)]) rest

/-- A choice in brackets after the opening one, and what follows. -/
def bracket? (text : List Char) : Option (Part × List Char) :=
  let (negated, text) :=
    match text with
    | '!' :: rest => (true, rest)
    | '^' :: rest => (true, rest)
    | _ => (false, text)
  (ranges? false [] text).map fun (found, rest) =>
    (.atom (.oneOf negated (found.flatMap fun (first, last) => rangeBytes first last)), rest)

/-- The parts after `**`, when `before` are the parts in front of it, last first: with separators
around it, it stands for steps, and otherwise for two stars. -/
def doubleStar (before : List Part) (last : Option Char) (rest : List Char) (inBranch : Bool) :
    List Part × List Char :=
  let twoStars := (Part.atom .anyRun :: .atom .anyRun :: before, rest)
  match before with
  | [] =>
      match rest with
      | [] => ([.atom .leadingSteps], [])
      | '/' :: rest => ([.atom .leadingSteps], rest)
      | _ => twoStars
  | previous :: earlier =>
      if last != some '/' then twoStars
      else
        let replace := fun (steps : Atom) =>
          match previous with
          | .atom .leadingSteps => previous :: earlier
          | .atom .trailingSteps => previous :: earlier
          | _ => .atom steps :: earlier
        match rest with
        | [] => (replace .trailingSteps, [])
        | '/' :: rest => (replace .innerSteps, rest)
        | c :: _ =>
            if inBranch && (c == ',' || c == '\x7d') then (replace .trailingSteps, rest)
            else twoStars

mutual

/-- The parts of a sequence up to its end: the end of the text, or, in a branch of alternatives, a
comma or a closing brace, which is left in front of the rest. `before` are the parts so far, last
first, and `last` is the character before. -/
def sequence? (fuel : Nat) (inBranch : Bool) (before : List Part) (last : Option Char)
    (text : List Char) : Option (List Part × List Char) :=
  match fuel with
  | 0 => none
  | fuel + 1 =>
      match text with
      | [] => if inBranch then none else some (before.reverse, [])
      | c :: rest =>
          let push := fun (a : Atom) => Part.atom a :: before
          if c == '?' then sequence? fuel inBranch (push .anyByte) (some c) rest
          else if c == '*' then
            match rest with
            | '*' :: rest =>
                let (parts, after) := doubleStar before last rest inBranch
                let last := if after.length < rest.length then '/' else '*'
                sequence? fuel inBranch parts (some last) after
            | _ => sequence? fuel inBranch (push .anyRun) (some c) rest
          else if c == '[' then do
            let (part, rest) ← bracket? rest
            sequence? fuel inBranch (part :: before) (some ']') rest
          else if c == '\x7b' then do
            let (branches, rest) ← branches? fuel rest
            sequence? fuel inBranch (.alternatives branches :: before) (some '\x7d') rest
          else if c == '\x7d' then if inBranch then some (before.reverse, text) else none
          else if c == ',' && inBranch then some (before.reverse, text)
          else if c == '\\' then
            match rest with
            | d :: rest =>
                sequence? fuel inBranch ((bytesOf d).reverse.map (.atom <| .byte ·) ++ before)
                  (some d) rest
            | [] => none
          else
            sequence? fuel inBranch ((bytesOf c).reverse.map (.atom <| .byte ·) ++ before) (some c)
              rest

/-- The branches of alternatives up to the closing brace, and what follows it. -/
def branches? (fuel : Nat) (text : List Char) : Option (List (List Part) × List Char) :=
  match fuel with
  | 0 => none
  | fuel + 1 => do
      let (parts, rest) ← sequence? fuel true [] (some '\x7b') text
      match rest with
      | ',' :: rest =>
          let (more, after) ← branches? fuel rest
          return (parts :: more, after)
      | _ :: after => return ([parts], after)
      | [] => none

end

mutual

/-- The patterns without alternatives that a list of parts stands for. -/
def expand : List Part → List (List Atom)
  | [] => [[]]
  | .atom a :: parts => (expand parts).map (a :: ·)
  | .alternatives branches :: parts =>
      let tails := expand parts
      match expandBranches branches with
      | [] => tails
      | heads => heads.flatMap fun head => tails.map (head ++ ·)

/-- The patterns of all branches. Empty branches count for nothing. -/
def expandBranches : List (List Part) → List (List Atom)
  | [] => []
  | [] :: rest => expandBranches rest
  | branch :: rest => expand branch ++ expandBranches rest

end

/-! ## Matching -/

/-- Whether atoms match the whole of a path. -/
def matchesAtoms : List Atom → List UInt8 → Bool
  | [], path => path.isEmpty
  | .leadingSteps :: atoms, path =>
      (Text.suffixesAfter (· == separator) path).any (matchesAtoms atoms)
  | .trailingSteps :: atoms, path =>
      match path with
      | b :: rest => b == separator && (Text.suffixes rest).any (matchesAtoms atoms)
      | [] => false
  | .innerSteps :: atoms, path =>
      match path with
      | b :: rest =>
          b == separator
            && (Text.suffixesAfter (· == separator) rest).any (matchesAtoms atoms)
      | [] => false
  | .anyRun :: atoms, path =>
      let run := path.takeWhile (· != separator)
      (Text.suffixes run).any fun left =>
        matchesAtoms atoms (left ++ path.dropWhile (· != separator))
  | .byte b :: atoms, path =>
      match path with
      | c :: rest => b == c && matchesAtoms atoms rest
      | [] => false
  | .anyByte :: atoms, path =>
      match path with
      | c :: rest => c != separator && matchesAtoms atoms rest
      | [] => false
  | .oneOf negated ranges :: atoms, path =>
      match path with
      | c :: rest =>
          (ranges.any (fun (first, last) => first ≤ c && c ≤ last) != negated)
            && matchesAtoms atoms rest
      | [] => false

end IgnoreGlob

/-- A pattern of an ignore file. -/
structure IgnoreGlob where
  /-- The ways to take the pattern, without alternatives. -/
  ways : List (List IgnoreGlob.Atom)

namespace IgnoreGlob

/-- Read a pattern; `none` when it is malformed. -/
def parse? (text : List Char) : Option IgnoreGlob :=
  (sequence? (2 * text.length + 2) false [] none text).map fun (parts, _) => ⟨expand parts⟩

/-- **Whether a pattern matches a path.** The pattern `**` alone matches every path. -/
def matchesPath (g : IgnoreGlob) (path : List UInt8) : Bool :=
  g.ways == [[.leadingSteps]] || g.ways.any fun atoms => matchesAtoms atoms path

end IgnoreGlob

end SwiftStyle
