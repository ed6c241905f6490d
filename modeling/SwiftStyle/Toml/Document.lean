import SwiftStyle.Toml.Value

/-!
# Toml/Document — tables under construction

While a document is read, a table remembers how it came about, because that decides what may be added
to it later: a table with a header of its own is closed to dotted keys of other tables, and a table
that was made by a dotted key has no header.
-/

namespace SwiftStyle.Toml

/-- How a table came about. -/
inductive TableMark
  /-- By a header, or as a value. -/
  | stated
  /-- As a parent of a header. -/
  | implied
  /-- As a parent of a dotted key. -/
  | dotted
deriving DecidableEq, Repr

/-- An entry of a table under construction. -/
inductive Item where
  | value (v : Value)
  | table (mark : TableMark) (entries : List (String × Item))
  /-- The tables of a header in double brackets, in order. -/
  | tables (elements : List (List (String × Item)))
deriving Repr

/-- The entries of a table under construction, in order of appearance. -/
abbrev Entries := List (String × Item)

namespace Entries

/-- The entry of a key. -/
def get? (entries : Entries) (key : String) : Option Item := entries.lookup key

/-- Replace the entry of a key, or add one at the end. -/
def set (entries : Entries) (key : String) (item : Item) : Entries :=
  if entries.any (·.1 == key) then entries.map fun e => if e.1 == key then (key, item) else e
  else entries ++ [(key, item)]

/-- Drop the entry of a key. -/
def erase (entries : Entries) (key : String) : Entries := entries.filter (·.1 != key)

/-- Change the table at the end of a path, where `change` is told how it came about. Tables that are
missing on the way are made; an array of tables stands for its last one. A dotted path does not lead
into a table with a header of its own. -/
def changeAt (isDotted : Bool) (change : TableMark → Entries → Option Entries) :
    List String → TableMark → Entries → Option Entries
  | [], mark, entries => change mark entries
  | key :: path, _, entries =>
      match entries.get? key with
      | none => do
          let mark := if isDotted then TableMark.dotted else .implied
          return entries.set key (.table mark (← changeAt isDotted change path mark []))
      | some (.value _) => none
      | some (.table mark child) =>
          if isDotted && mark == .stated then none
          else do return entries.set key (.table mark (← changeAt isDotted change path mark child))
      | some (.tables elements) => do
          let last ← elements.getLast?
          let changed ← changeAt isDotted change path .stated last
          return entries.set key (.tables (elements.dropLast ++ [changed]))

/-- Add a value under a dotted key with `path` before its last name. No key is set twice, and a dotted
key adds to no table that headers made. -/
def add (entries : Entries) (path : List String) (key : String) (value : Value) : Option Entries :=
  changeAt true
    (fun mark table =>
      if (mark == .dotted) == path.isEmpty then none
      else if (table.get? key).isSome then none
      else some (table.set key (.value value)))
    path .stated entries

end Entries

mutual

/-- The value of an entry. -/
def Item.toValue : Item → Value
  | .value v => v
  | .table _ entries => .table (entriesToTable entries)
  | .tables elements => .array (tablesToValues elements)

/-- The table of its entries. -/
def entriesToTable : List (String × Item) → Table
  | [] => []
  | (key, item) :: rest => (key, item.toValue) :: entriesToTable rest

/-- The values of several tables. -/
def tablesToValues : List (List (String × Item)) → List Value
  | [] => []
  | entries :: rest => .table (entriesToTable entries) :: tablesToValues rest

end

/-- The header that a table under construction belongs to. -/
structure Header where
  /-- The names before the last. -/
  path : List String
  name : String
  /-- Whether it stands in double brackets. -/
  isElement : Bool
deriving DecidableEq, Repr

/-- A document under construction: what is finished, and the table of the last header. -/
structure Draft where
  root : Entries := []
  header : Option Header := none
  current : Entries := []

namespace Draft

/-- Put the table of the last header in its place. -/
def finish (d : Draft) : Option Entries :=
  match d.header with
  | none => some d.current
  | some h =>
      Entries.changeAt false
        (fun _ table =>
          if h.isElement then
            match table.get? h.name with
            | none => some (table.set h.name (.tables [d.current]))
            | some (.tables elements) =>
                some (table.set h.name (.tables (elements ++ [d.current])))
            | some _ => none
          else if (table.get? h.name).isSome then none
          else some (table.set h.name (.table .stated d.current)))
        h.path .implied d.root

/-- The item that is found at the end of a path. An array of tables stands for its last one. -/
def find? : List String → Entries → Option Item
  | [], _ => none
  | [key], entries => entries.get? key
  | key :: path, entries =>
      match entries.get? key with
      | some (.table _ child) => find? path child
      | some (.tables elements) => elements.getLast?.bind (find? path)
      | _ => none

/-- Begin the table of a header. A table that is so far only a parent of others keeps them; any other
table of that name is an error, except for further elements of an array of tables. -/
def start (d : Draft) (h : Header) : Option Draft := do
  let root ← d.finish
  let existing := find? (h.path ++ [h.name]) root
  match existing, h.isElement with
  | some (.tables _), true => return { root, header := some h }
  | some (.table .implied child), false =>
      let without ←
        Entries.changeAt false (fun _ table => some (table.erase h.name)) h.path .implied root
      return { root := without, header := some h, current := child }
  | some _, _ => none
  | none, _ =>
      let made ← Entries.changeAt false (fun _ table => some table) h.path .implied root
      return { root := made, header := some h }

/-- Add a value to the table of the last header. -/
def add (d : Draft) (path : List String) (key : String) (value : Value) : Option Draft := do
  return { d with current := ← d.current.add path key value }

end Draft

end SwiftStyle.Toml
