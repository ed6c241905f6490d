import SwiftStyle.Path

/-!
# Files/Tree — a tree of files, directories and links

A tree is a finite map from locations to entries, where a location is the list of names that lead to
it from the root. Beside the entries there are symbolic links: a link stands at a location for a
path. Paths are turned into locations step by step (`resolve`): every step but the last must lead to
a directory that is there, and where a link stands its path is followed instead. So an entry has one
location, but it has many paths.

Permissions, second names of one file and names that are no Unicode text are left out: whatever is
there can be read and written, unless a fault from outside prevents it.
-/

namespace SwiftStyle

/-- What can go wrong with a file. -/
inductive FileError
  | notFound
  | notDirectory
  | isDirectory
  | alreadyThere
  | busy
  | tooManyLinks
  /-- The contents are no text. -/
  | notText
  /-- Anything else, in the words of the system. -/
  | other (message : String)
deriving DecidableEq, Repr

/-- The wording of a file error. -/
def FileError.message : FileError → String
  | notFound => "No such file or directory (os error 2)"
  | notDirectory => "Not a directory (os error 20)"
  | isDirectory => "Is a directory (os error 21)"
  | alreadyThere => "File exists (os error 17)"
  | busy => "Device or resource busy (os error 16)"
  | tooManyLinks => "Too many levels of symbolic links (os error 40)"
  | notText => "stream did not contain valid UTF-8"
  | other message => message

/-- The names that lead from the root to a place. -/
abbrev Place := List String

/-- What stands at a place. -/
inductive Entry
  | directory
  | file (bytes : ByteArray)

instance : DecidableEq Entry
  | .directory, .directory => isTrue rfl
  | .directory, .file _ => isFalse Entry.noConfusion
  | .file _, .directory => isFalse Entry.noConfusion
  | .file a, .file b =>
      @decidable_of_iff _ (a = b) (by simp) (ByteArray.instDecidableEq a b)

/-- Files, directories and links, and the directory where relative paths begin. -/
structure FileTree where
  /-- Entries by place; the root itself is not among them. -/
  entries : List (Place × Entry) := []
  workingDirectory : Place := []
  /-- The paths that links stand for, by the place of the link. -/
  links : List (Place × Path) := []

namespace FileTree

/-! ## Entries by place -/

/-- The entry at a place. The root is a directory. -/
def get? (t : FileTree) (place : Place) : Option Entry :=
  if place = [] then some .directory else t.entries.lookup place

/-- The path that the link at a place stands for, if there is a link. -/
def link? (t : FileTree) (place : Place) : Option Path := t.links.lookup place

/-- Put an entry at a place, in the stead of what is there. -/
def set (t : FileTree) (place : Place) (entry : Entry) : FileTree :=
  { t with
    entries := (place, entry) :: t.entries.filter (·.1 != place)
    links := t.links.filter (·.1 != place) }

/-- Drop what is at a place. -/
def erase (t : FileTree) (place : Place) : FileTree :=
  { t with
    entries := t.entries.filter (·.1 != place)
    links := t.links.filter (·.1 != place) }

/-- Drop what is at a place and everything below it. -/
def eraseAll (t : FileTree) (place : Place) : FileTree :=
  { t with
    entries := t.entries.filter fun e => !place.isPrefixOf e.1
    links := t.links.filter fun l => !place.isPrefixOf l.1 }

@[simp] theorem get?_nil (t : FileTree) : t.get? [] = some .directory := by simp [get?]

theorem lookup_filter_ne {α β : Type} [BEq α] [LawfulBEq α] (l : List (α × β)) {a b : α}
    (h : b ≠ a) : (l.filter (·.1 != a)).lookup b = l.lookup b := by
  induction l with
  | nil => rfl
  | cons x l ih =>
      obtain ⟨k, v⟩ := x
      by_cases hk : k = a
      · subst hk
        simp [List.lookup_cons, ih, beq_false_of_ne h]
      · simp [hk, List.lookup_cons, ih]

theorem lookup_filter_self {α β : Type} [BEq α] [LawfulBEq α] (l : List (α × β)) (a : α) :
    (l.filter (·.1 != a)).lookup a = none := by
  induction l with
  | nil => rfl
  | cons x l ih =>
      obtain ⟨k, v⟩ := x
      by_cases hk : k = a
      · subst hk; simp [ih]
      · simp [hk, List.lookup_cons, ih, beq_false_of_ne (Ne.symm hk)]

/-- **Writing a place changes that place.** -/
theorem get?_set_self (t : FileTree) {place : Place} (h : place ≠ []) (entry : Entry) :
    (t.set place entry).get? place = some entry := by simp [get?, set, h]

/-- **Writing a place changes no other.** -/
theorem get?_set_ne (t : FileTree) {place other : Place} (h : other ≠ place) (entry : Entry) :
    (t.set place entry).get? other = t.get? other := by
  by_cases ho : other = []
  · simp [ho]
  · simp [get?, set, ho, List.lookup_cons, lookup_filter_ne _ h, beq_false_of_ne h]

/-- **Dropping a place leaves nothing there.** -/
theorem get?_erase_self (t : FileTree) {place : Place} (h : place ≠ []) :
    (t.erase place).get? place = none := by simp [get?, erase, h, lookup_filter_self]

/-- **Dropping a place changes no other.** -/
theorem get?_erase_ne (t : FileTree) {place other : Place} (h : other ≠ place) :
    (t.erase place).get? other = t.get? other := by
  by_cases ho : other = []
  · simp [ho]
  · simp [get?, erase, ho, lookup_filter_ne _ h]

/-! ## Paths -/

/-- The place where a path begins. -/
def start (t : FileTree) (p : Path) : Place := if p.isAbsolute then [] else t.workingDirectory

/-- One step of a path, from a directory. -/
def step (t : FileTree) (place : Place) (piece : List Char) : Except FileError Place :=
  match t.get? place with
  | none => .error .notFound
  | some (.file _) => .error .notDirectory
  | some .directory =>
      if piece = [] || piece = ['.'] then .ok place
      else if piece = ['.', '.'] then .ok place.dropLast
      else .ok (place ++ [String.ofList piece])

/-- The place where the path of a link begins, in the directory of the link. -/
def linkStart (directory : Place) (target : Path) : Place :=
  if target.isAbsolute then [] else directory

/-- Steps from a place. A link among them is left to `onLink`, with the place where its path begins
and all the steps that are left to do. -/
def proceed (t : FileTree) (onLink : Place → List (List Char) → Except FileError Place) :
    Place → List (List Char) → Except FileError Place
  | place, [] => .ok place
  | place, piece :: rest => do
      let next ← t.step place piece
      match t.link? next with
      | none => proceed t onLink next rest
      | some target => onLink (linkStart place target) (target.pieces ++ rest)

/-- Steps from a place, over so many links at most. -/
def follow (t : FileTree) : Nat → Place → List (List Char) → Except FileError Place
  | 0 => t.proceed fun _ _ => .error .tooManyLinks
  | links + 1 => t.proceed (follow t links)

/-- How many links may be on the way of a path. -/
def maxLinks : Nat := 40

/-- **The place that a path leads to.** Nothing need be there, but the way to it must be. -/
def resolve (t : FileTree) (p : Path) : Except FileError Place :=
  if p.text.isEmpty then .error .notFound else t.follow maxLinks (t.start p) p.pieces

/-- The place that a path names: the one that it leads to, but for a link at its end, which is not
followed. -/
def resolveEntry (t : FileTree) (p : Path) : Except FileError Place :=
  if p.text.isEmpty then .error .notFound
  else do
    let directory ← t.follow maxLinks (t.start p) p.pieces.dropLast
    t.step directory (p.pieces.getLastD [])

/-- The entry that a path leads to. -/
def entry? (t : FileTree) (p : Path) : Option Entry := (t.resolve p).toOption.bind t.get?

/-- Whether a path leads to a directory. -/
def isDirectory (t : FileTree) (p : Path) : Bool := t.entry? p == some .directory

/-- Whether a path leads to a file. -/
def isFile (t : FileTree) (p : Path) : Bool :=
  match t.entry? p with
  | some (.file _) => true
  | _ => false

/-- What names lead to from the root: what stands at the place of these names, unless links are on
the way. -/
def shown? (t : FileTree) (names : Place) : Option Entry :=
  (t.follow maxLinks [] (names.map String.toList)).toOption.bind t.get?

/-- The path of a place. -/
def pathOf (place : Place) : Path := ⟨"/" ++ "/".intercalate place⟩

/-- The path of the working directory. -/
def workingPath (t : FileTree) : Path := pathOf t.workingDirectory

/-- The absolute form of a path. -/
def absolute (t : FileTree) (p : Path) : Path := t.workingPath.absolute p

/-! ## Reading -/

/-- The contents of a file. -/
def read (t : FileTree) (p : Path) : Except FileError ByteArray := do
  match t.get? (← t.resolve p) with
  | none => throw .notFound
  | some .directory => throw .isDirectory
  | some (.file bytes) => return bytes

/-- The text of a file. -/
def readText (t : FileTree) (p : Path) : Except FileError String := do
  match String.fromUTF8? (← t.read p) with
  | some text => return text
  | none => throw .notText

/-! ## Writing -/

/-- Write a file, in a directory that is there. A link at the end of the path stays, and the file
that it leads to is written. -/
def write (t : FileTree) (p : Path) (bytes : ByteArray) : Except FileError FileTree := do
  let place ← t.resolve p
  match t.get? place with
  | some .directory => throw .isDirectory
  | _ => return t.set place (.file bytes)

/-- Make a directory, in a directory that is there, where neither an entry nor a link is. -/
def makeDirectory (t : FileTree) (p : Path) : Except FileError FileTree := do
  let place ← t.resolveEntry p
  match t.get? place, t.link? place with
  | none, none => return t.set place .directory
  | _, _ => throw .alreadyThere

/-- Make a directory, unless it is there. -/
def ensureDirectory (t : FileTree) (p : Path) : FileTree × Except FileError Unit :=
  match t.makeDirectory p with
  | .ok made => (made, .ok ())
  | .error e => (t, if t.isDirectory p then .ok () else .error e)

/-- Make the directory at the end of steps, the last one first, and those that are missing on the
way to it. What was made stays even if something fails later. -/
def makeSteps (t : FileTree) : List Path.Component → FileTree × Except FileError Unit
  | [] => (t, .ok ())
  | last :: before =>
      let p := Path.ofComponents (last :: before).reverse
      match t.makeDirectory p with
      | .error .notFound =>
          match makeSteps t before with
          | (t, .ok ()) => t.ensureDirectory p
          | (t, .error e) => (t, .error e)
      | _ => t.ensureDirectory p

/-- **Make a directory** and those that are missing on the way to it. -/
def makeDirectories (t : FileTree) (p : Path) : FileTree × Except FileError Unit :=
  t.makeSteps p.components.reverse

/-- The directory where the last step of a path begins, and that step. The root has no last step. -/
def resolveLast (t : FileTree) (p : Path) : Except FileError (Place × List Char) := do
  let pieces := (p.pieces.reverse.dropWhile (·.isEmpty)).reverse
  if p.text.isEmpty then throw .notFound
  match pieces.getLast? with
  | none => throw .busy
  | some last =>
      let directory ← t.follow maxLinks (t.start p) pieces.dropLast
      match t.get? directory with
      | none => throw .notFound
      | some (.file _) => throw .notDirectory
      | some .directory => return (directory, last)

/-- Move the file at a place to the place that a path names, in the stead of a file or a link that
may be there. -/
def rename (t : FileTree) (source : Place) (p : Path) : Except FileError FileTree := do
  let (directory, last) ← t.resolveLast p
  if last = ['.'] || last = ['.', '.'] then throw .busy
  if p.text.toList.getLast? = some '/' then throw .notDirectory
  let place := directory ++ [String.ofList last]
  match t.get? place, t.get? source with
  | some .directory, _ => throw .isDirectory
  | _, some (.file bytes) => return (t.erase source).set place (.file bytes)
  | _, _ => throw .notFound

end FileTree

end SwiftStyle
