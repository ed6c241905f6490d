import SwiftStyle.Files.IgnoreGlob
import SwiftStyle.Files.Tree
import SwiftStyle.Text.Blank
import SwiftStyle.Text.Search

/-!
# Files/IgnoreRule — ignore files and what they say about a path

A line of an ignore file ignores paths, or, after `!`, keeps them. Of the lines of one file the last
one that matches counts; of several files the one in the nearest directory. `verdict?` puts the three
kinds of ignore file together.
-/

namespace SwiftStyle

/-- A line of an ignore file. -/
structure IgnoreRule where
  glob : IgnoreGlob
  /-- Whether matching paths are kept rather than ignored. -/
  keeps : Bool
  directoriesOnly : Bool

namespace IgnoreRule

/-- The line without its final slash, which restricts it to directories; a backslash before the slash
goes with it. -/
def cutFinalSlash (line : List Char) : Bool × List Char :=
  match line.reverse with
  | '/' :: '\\' :: rest => (true, rest.reverse)
  | '/' :: rest => (true, rest.reverse)
  | _ => (false, line)

/-- The pattern of a line that may match at any depth: one without a slash inside. -/
def atAnyDepth (pattern : List Char) : List Char :=
  if pattern = ['*', '*'] || (Text.dropLead? ['*', '*', '/'] pattern).isSome then pattern
  else ['*', '*', '/'] ++ pattern

/-- The pattern of what is inside a directory: a final `**` does not stand for the directory
itself. -/
def insideOnly (pattern : List Char) : List Char :=
  if Text.endsWith ['/', '*', '*'] pattern then pattern ++ ['/', '*'] else pattern

/-- The rule of a line: nothing for a comment, an empty line and a malformed pattern. -/
def ofLine? (line : List Char) : Option IgnoreRule := do
  if line.head? = some '#' then none
  let line := if Text.endsWith ['\\', ' '] line then line else Text.trimEnd line
  if line.isEmpty then none
  let isEscaped := (Text.dropLead? ['\\', '!'] line).isSome || (Text.dropLead? ['\\', '#'] line).isSome
  let keeps := !isEscaped && line.head? = some '!'
  let line := if isEscaped || keeps then line.drop 1 else line
  let isAnchored := !isEscaped && line.head? = some '/'
  let line := if isAnchored then line.drop 1 else line
  let (directoriesOnly, line) := cutFinalSlash line
  let pattern := if isAnchored || line.contains '/' then line else atAnyDepth line
  let glob ← IgnoreGlob.parse? (insideOnly pattern)
  return { glob, keeps, directoriesOnly }

/-- The text of a line, up to a line that is no text. -/
def textLines : List (List UInt8) → List (List Char)
  | [] => []
  | bytes :: rest =>
      match String.fromUTF8? ⟨bytes.toArray⟩ with
      | none => []
      | some text => text.toList :: textLines rest

/-- The lines of an ignore file, without the mark of its byte order. -/
def linesOf (bytes : ByteArray) : List (List Char) :=
  match textLines (splitLines bytes.toList) with
  | ('\ufeff' :: first) :: rest => first :: rest
  | lines => lines
where
  /-- Bytes between line breaks. -/
  splitLines : List UInt8 → List (List UInt8)
    | [] => [[]]
    | b :: rest =>
        if b == 10 then [] :: splitLines rest
        else
          match splitLines rest with
          | [] => [[b]]
          | line :: lines => (b :: line) :: lines

/-- The rules of an ignore file. -/
def ofFile (bytes : ByteArray) : List IgnoreRule := (linesOf bytes).filterMap ofLine?

end IgnoreRule

/-- What ignore files say about a path. -/
inductive Verdict
  | ignored
  | kept
deriving DecidableEq, Repr

namespace FileTree

/-- The rules of the ignore file at a place; none when there is no file. -/
def rulesAt (t : FileTree) (place : Place) : List IgnoreRule :=
  match t.shown? place with
  | some (.file bytes) => IgnoreRule.ofFile bytes
  | _ => []

/-- The verdict of rules on a path: that of the last one that matches. -/
def verdictOf? (rules : List IgnoreRule) (relative : Place) (isDirectory : Bool) :
    Option Verdict :=
  let path := ("/".intercalate relative).toUTF8.toList
  (rules.reverse.find? fun r => (!r.directoriesOnly || isDirectory) && r.glob.matchesPath path).map
    fun r => if r.keeps then .kept else .ignored

/-- The directories above a place, the nearest first, each with the way from it to the place. -/
def above : Place → List (Place × Place)
  | [] => []
  | name :: rest => (above rest).map (fun (d, way) => (name :: d, way)) ++ [([], name :: rest)]

/-- The directories up to and including the nearest that satisfies `p`; none when there is no such
directory. -/
def upTo (p : Place → Bool) : List (Place × Place) → List (Place × Place)
  | [] => []
  | (d, way) :: rest =>
      if p d then [(d, way)]
      else
        match upTo p rest with
        | [] => []
        | more => (d, way) :: more

/-- **What ignore files say about an entry.** `.ignore` files count everywhere; `.gitignore` files and
the exclude file of a repository count from the entry up to the root of the repository. The ignore
file that a user keeps for all repositories is left out. -/
def verdict? (t : FileTree) (place : Place) (isDirectory : Bool) : Option Verdict :=
  let directories := above place
  let repository := upTo (fun d => (t.shown? (d ++ [".git"])).isSome) directories
  let ask := fun (file : Place) (ds : List (Place × Place)) =>
    ds.findSome? fun (d, way) => verdictOf? (t.rulesAt (d ++ file)) way isDirectory
  (ask [".ignore"] directories).or <|
    (ask [".gitignore"] repository).or (ask [".git", "info", "exclude"] repository)

end FileTree

end SwiftStyle
