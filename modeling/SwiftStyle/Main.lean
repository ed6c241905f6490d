import SwiftStyle.Command.Run

/-!
# Main — the command on a real file system

The files that a command line can reach are read into a tree, the command is run on the tree, and
what it changed is written back. A link is read with what it leads to; one that leads nowhere is
passed over, since its path cannot be asked for.
-/

namespace SwiftStyle.Main

/-- The place that a path leads to from the working directory. -/
def placeOf (working p : Path) : Place :=
  (working.absolute p).components.foldl
    (fun place c =>
      match c with
      | .name name => place ++ [name]
      | .parent => place.dropLast
      | .root | .current => place)
    []

/-- The paths that a request names. -/
def pathsOf (i : Command.Invocation) : List Path :=
  i.common.config.toList ++
    match i.request with
    | .lint a => if a.fromInput then [] else a.roots
    | .index a => a.cachePath.toList ++ a.directories ++ a.paths
    | .rules _ | .init _ => []

/-! ## Reading -/

/-- What kind of thing stands at a path, if anything does. -/
def typeAt (path : String) : IO (Option IO.FS.FileType) := do
  try
    return some (← ((← IO.currentDir) / path).symlinkMetadata).type
  catch _ => return none

/-- The names in a directory; none when it cannot be read. -/
def namesIn (path : String) : IO (List String) := do
  try
    return (← ((← IO.currentDir) / path).readDir).toList.map (·.fileName)
  catch _ => return []

/-- The place that a path leads to over links, if something is there. -/
def realPlace? (path : String) : IO (Option Place) := do
  try
    return some (placeOf ⟨"/"⟩ ⟨(← IO.FS.realPath path).toString⟩)
  catch _ => return none

mutual

/-- Read the file, the single directory or the link at a place into the tree. -/
partial def readEntry (t : FileTree) (place : Place) : IO FileTree := do
  if place = [] then return t
  let path := (FileTree.pathOf place).text
  match ← typeAt path with
  | some .dir => return t.set place .directory
  | some .symlink => readLink t place
  | some .file =>
      try
        return t.set place (.file (← IO.FS.readBinFile path))
      catch _ => return t
  | _ => return t

/-- Read the link at a place and what it leads to, unless this was done before. -/
partial def readLink (t : FileTree) (place : Place) : IO FileTree := do
  if (t.link? place).isSome then return t
  match ← realPlace? (FileTree.pathOf place).text with
  | none => return t
  | some target =>
      readAround { t with links := (place, FileTree.pathOf target) :: t.links } target

/-- Read a place and everything below it. Of a repository's own directory only the exclude file
matters. -/
partial def readBelow (t : FileTree) (place : Place) : IO FileTree := do
  let t ← readEntry t place
  if place.getLast? = some ".git" then
    readEntry (← readEntry t (place ++ ["info"])) (place ++ ["info", "exclude"])
  else if t.get? place = some .directory then
    (← namesIn (FileTree.pathOf place).text).foldlM (fun t name => readBelow t (place ++ [name])) t
  else return t

/-- Read a place, what is below it, and the directories above it with their ignore files. -/
partial def readAround (t : FileTree) (place : Place) : IO FileTree := do
  let t ← (FileTree.above place).foldlM
    (fun t (directory, _) => do
      let files : List Place :=
        [[], [".ignore"], [".gitignore"], [".git"], [".git", "info"], [".git", "info", "exclude"]]
      files.foldlM (fun t file => readEntry t (directory ++ file)) t)
    t
  readBelow t place

end

/-- Read what can be reached through paths, by their names and over links. -/
def readTree (t : FileTree) (paths : List Path) : IO FileTree :=
  paths.foldlM
    (fun t p => do
      let named := placeOf t.workingPath p
      let t ← readAround t named
      match ← realPlace? (t.absolute p).text with
      | none => return t
      | some place => if place = named then return t else readAround t place)
    t

/-! ## Writing -/

/-- Write back an entry that a command changed. Files take their place in one step. -/
def writeEntry (place : Place) (entry : Entry) : IO Unit := do
  let path := (FileTree.pathOf place).text
  match entry with
  | .directory => IO.FS.createDirAll path
  | .file bytes =>
      let temporary := path ++ ".tmp"
      IO.FS.writeBinFile temporary bytes
      IO.FS.rename temporary path

/-- Write back what a command changed, directories before what is in them. -/
def writeChanges (old new : FileTree) : IO Unit := do
  let changed := new.entries.filter fun (place, entry) => old.get? place != some entry
  let ordered := changed.mergeSort fun a b => a.1.length ≤ b.1.length
  ordered.forM fun (place, entry) => writeEntry place entry

/-! ## The command -/

/-- How to write a command line. -/
def usage : String :=
  "Usage: tidemark [-v] [-c FILE] COMMAND\n\n"
    ++ "  lint [PATHS] [--stdin] [-f text|json|compact] [--rules LIST]\n"
    ++ "       [--preset default|all|minimal] [--fail-on SEVERITY] [-e PATTERN] [-j N]\n"
    ++ "  index [--cache-path FILE] [--directories LIST] [--paths LIST]\n"
    ++ "  rules [-f text|json]\n"
    ++ "  init [--force]\n"

/-- Standard input up to its end. -/
partial def readInput (input : IO.FS.Stream) (before : ByteArray) : IO ByteArray := do
  let bytes ← input.read 65536
  if bytes.isEmpty then return before
  readInput input (before ++ bytes)

/-- Whether a request reads standard input. -/
def takesInput (i : Command.Invocation) : Bool :=
  match i.request with
  | .lint a => a.fromInput
  | _ => false

/-- What a request sees: the working directory, the paths it names and the files of its
configuration. -/
def surroundings (i : Command.Invocation) : IO Command.Surroundings := do
  let working : Path := ⟨(← IO.currentDir).toString⟩
  let environment : Environment :=
    { configDirectory := ← IO.getEnv "TIDEMARK_CONFIG_DIR", home := ← IO.getEnv "HOME" }
  let start : FileTree := { workingDirectory := placeOf ⟨"/"⟩ working }
  let globals := ((Config.globalDirectory? environment).map (·.join Config.globalName)).toList
  let config := (Config.projectNames ++ [Command.templatePath]).map Command.projectDirectory.join
  let tree ← readTree start (globals ++ config ++ pathsOf i)
  let input ← if takesInput i then readInput (← IO.getStdin) .empty else pure .empty
  let s : Command.Surroundings := { tree, environment, input }
  match Command.loadConfig s i.common with
  | .error _ => return s
  | .ok config => return { s with tree := ← readTree tree config.index.cachePath.toList }

/-- Run a request and print its outcome. -/
def runRequest (i : Command.Invocation) : IO UInt32 := do
  let s ← surroundings i
  let o := i.outcome s {}
  writeChanges s.tree o.tree
  IO.eprint o.errors
  IO.print o.output
  return o.exitCode.number.toUInt32

/-- Run a command line. -/
def run (arguments : List String) : IO UInt32 := do
  match Command.parse arguments with
  | .ok i => runRequest i
  | .error stop =>
      let o := stop.outcome {}
      match stop with
      | .help => IO.print usage
      | .malformed => IO.eprint usage
      | .version => IO.print o.output
      return o.exitCode.number.toUInt32

end SwiftStyle.Main

/-- **The command.** -/
def main (arguments : List String) : IO UInt32 := SwiftStyle.Main.run arguments
