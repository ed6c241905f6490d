import SwiftStyle.Faults

/-!
# Files/Replacement — writing a file in one step

New contents are written to a temporary file beside the target, which then takes the target's place.
Each step may fail; then the temporary file is dropped. A `Replacement` keeps the tree as it was
after each step, because what another reader sees in between matters.
-/

namespace SwiftStyle

/-- How a replacement went. -/
structure Replacement where
  /-- The trees that could be seen: before, between and after the steps. -/
  states : List FileTree
  final : FileTree
  outcome : Except FileError Unit

namespace FileTree

/-- A step changes the tree and may fail. -/
abbrev Step := FileTree → FileTree × Except FileError Unit

/-- Steps up to the first that fails: the tree after each, and how it ended. -/
def runSteps (t : FileTree) : List Step → List FileTree × Except FileError Unit
  | [] => ([], .ok ())
  | step :: rest =>
      match step t with
      | (t, .error e) => ([t], .error e)
      | (t, .ok ()) =>
          let (states, outcome) := runSteps t rest
          (t :: states, outcome)

/-- The length of the longest name that a place ends in. -/
def longestName (places : List Place) : Nat :=
  places.foldl (fun n place => max n ((place.getLast?.map String.length).getD 0)) 0

/-- A name that nothing in the tree has, nor any step of a path or of a link. -/
def freshName (t : FileTree) (p : Path) : String :=
  let longest := longestName (t.entries.map (·.1) ++ t.links.map (·.1))
  ".tmp".pushn 'x' (t.links.foldl (fun n l => max n l.2.text.length) (max longest p.text.length))

/-- The steps that bring contents to a path through a temporary file. -/
def replacementSteps (faults : Faults) (p : Path) (bytes : ByteArray) (temporary : Place) :
    List Step :=
  [fun t =>
      match faults.error? .create with
      | some e => (t, .error e)
      | none => (t.set temporary (.file .empty), .ok ()),
    fun t =>
      match faults.error? .write with
      | some e => (t.set temporary (.file (bytes.extract 0 faults.written)), .error e)
      | none => (t.set temporary (.file bytes), .ok ()),
    fun t =>
      match faults.error? .synchronize with
      | some e => (t, .error e)
      | none => (t, .ok ()),
    fun t =>
      match faults.error? .rename with
      | some e => (t, .error e)
      | none =>
          match t.rename temporary p with
          | .error e => (t, .error e)
          | .ok t => (t, .ok ())]

/-- The directory of a target. -/
def directoryOf (p : Path) : Path :=
  match p.parent? with
  | some parent => if parent.text.isEmpty then ⟨"."⟩ else parent
  | none => ⟨"."⟩

/-- Make the directory of a target. -/
def makeDirectoryOf (faults : Faults) (p : Path) : Step := fun t =>
  match faults.error? .makeDirectory with
  | some e =>
      ((t.makeSteps ((directoryOf p).components.take faults.made).reverse).1, .error e)
  | none => t.makeDirectories (directoryOf p)

/-- **Replace what a path leads to by a file**, in a directory that is made when it is missing. -/
def replaceFile (faults : Faults) (t : FileTree) (p : Path) (bytes : ByteArray) : Replacement :=
  match makeDirectoryOf faults p t with
  | (made, .error e) => ⟨[t, made], made, .error e⟩
  | (made, .ok ()) =>
      match made.resolve (directoryOf p) with
      | .error e => ⟨[t, made], made, .error e⟩
      | .ok directory =>
          let temporary := directory ++ [made.freshName p]
          match made.runSteps (replacementSteps faults p bytes temporary) with
          | (states, .ok ()) =>
              let final := states.getLast?.getD made
              ⟨t :: made :: states, final, .ok ()⟩
          | (states, .error e) =>
              let final := (states.getLast?.getD made).erase temporary
              ⟨t :: made :: states ++ [final], final, .error e⟩

end FileTree

end SwiftStyle
