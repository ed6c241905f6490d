import SwiftStyle.Command.Items
import SwiftStyle.Report.Render
import SwiftStyle.Rules.Catalog
import SwiftStyle.Text.Blank

/-!
# Command/Arguments — what a command line asks for

A command line names one of four commands. Common switches may stand before the name or after it;
where they are given twice, the one after the name counts.
-/

namespace SwiftStyle.Command

/-- What to lint, with which rules, and how to report it. -/
structure LintArguments where
  paths : List Path := []
  fromInput : Bool := false
  format : ReportFormat := .text
  /-- Names of rules; with any, they alone run. -/
  rules : List String := []
  preset : Preset := .default
  failOn : Option Severity := none
  exclude : List String := []
  jobs : Option Nat := none
deriving DecidableEq, Repr

/-- What to scan for the index, and where to keep it. -/
structure IndexArguments where
  cachePath : Option Path := none
  directories : List Path := []
  paths : List Path := []
deriving DecidableEq, Repr

/-- The formats of the rule listing. -/
inductive ListingFormat
  | text
  | json
deriving DecidableEq, Repr, Inhabited

/-- The format of a word. -/
def ListingFormat.ofText? : String → Option ListingFormat
  | "text" => some .text
  | "json" => some .json
  | _ => none

/-- A command with its arguments. -/
inductive Request
  | lint (arguments : LintArguments)
  | index (arguments : IndexArguments)
  | rules (format : ListingFormat)
  | init (force : Bool)
deriving DecidableEq, Repr

/-- What may stand with every command. -/
structure Common where
  config : Option Path := none
  verbose : Bool := false
deriving DecidableEq, Repr

/-- A command line. -/
structure Invocation where
  common : Common
  request : Request
deriving DecidableEq, Repr

/-- Why a command line leads to no run of a command. -/
inductive Stop
  | help
  | version
  | malformed
deriving DecidableEq, Repr

/-! ## Values -/

/-- The value, or a malformed command line. -/
def orMalformed {α : Type} : Option α → Except Stop α
  | some a => .ok a
  | none => .error .malformed

/-- A path from a value. -/
def path (text : String) : Except Stop Path :=
  if text.isEmpty then .error .malformed else .ok ⟨text⟩

/-- The values between commas. -/
def values (text : String) : List String := (Text.splitAt (· == ',') text.toList).map String.ofList

/-- A number of 64 bits in digits, with or without a plus. -/
def number (text : String) : Except Stop Nat :=
  let digits :=
    match text.toList with
    | '+' :: rest => rest
    | all => all
  let n := digits.foldl (fun n c => n * 10 + (c.toNat - 48)) 0
  if digits.isEmpty || !digits.all Char.isDigit || Nat.pow 2 64 ≤ n then .error .malformed else .ok n

/-! ## Items of one command -/

/-- The switches that stand with every command. -/
def commonSwitches : List Switch :=
  [{ long := "help", short := some 'h' }, { long := "verbose", short := some 'v' },
    { long := "config", short := some 'c', takesValue := true }]

/-- Take an item that is common to all commands; any other goes to `own`. -/
def takeItem {α : Type} (own : α → Item → Except Stop α) (state : Common × α) :
    Item → Except Stop (Common × α)
  | .flag "help" => .error .help
  | .flag "verbose" => .ok ({ state.1 with verbose := true }, state.2)
  | .value "config" text => do return ({ state.1 with config := some (← path text) }, state.2)
  | item => do return (state.1, ← own state.2 item)

/-- Take items one by one. A switch that does not repeat stands at most once. -/
def takeItems {α : Type} (switches : List Switch) (take : α → Item → Except Stop α) :
    List String → α → List Item → Except Stop α
  | _, a, [] => .ok a
  | seen, a, item :: rest => do
      let name? :=
        match item with
        | .flag name | .value name _ => some name
        | .word _ | .malformed => none
      match name? with
      | some name =>
          if seen.contains name && switches.any (fun s => s.long == name && !s.repeats) then
            throw .malformed
          takeItems switches take (name :: seen) (← take a item) rest
      | none => takeItems switches take seen (← take a item) rest

/-- Read the arguments of a command: common ones and its own. -/
def readArguments {α : Type} (switches : List Switch) (own : α → Item → Except Stop α) (start : α)
    (arguments : List String) : Except Stop (Common × α) :=
  let switches := commonSwitches ++ switches
  takeItems switches (takeItem own) [] ({}, start) (items switches false none arguments).1

/-! ## The commands -/

/-- The switches of `lint`. -/
def lintSwitches : List Switch :=
  [{ long := "stdin" }, { long := "format", short := some 'f', takesValue := true },
    { long := "rules", takesValue := true, repeats := true },
    { long := "preset", takesValue := true }, { long := "fail-on", takesValue := true },
    { long := "exclude", short := some 'e', takesValue := true, repeats := true },
    { long := "jobs", short := some 'j', takesValue := true }]

/-- Take an item of `lint`. -/
def takeLint (a : LintArguments) : Item → Except Stop LintArguments
  | .flag "stdin" => .ok { a with fromInput := true }
  | .value "format" text => do
      return { a with format := ← orMalformed (ReportFormat.ofText? text) }
  | .value "rules" text => .ok { a with rules := a.rules ++ values text }
  | .value "preset" text => do return { a with preset := ← orMalformed (Preset.ofText? text) }
  | .value "fail-on" text => do
      return { a with failOn := some (← orMalformed (Severity.parse text).toOption) }
  | .value "exclude" text => .ok { a with exclude := a.exclude ++ [text] }
  | .value "jobs" text => do return { a with jobs := some (← number text) }
  | .word text => do return { a with paths := a.paths ++ [← path text] }
  | _ => .error .malformed

/-- The switches of `index`. -/
def indexSwitches : List Switch :=
  [{ long := "cache-path", takesValue := true },
    { long := "directories", takesValue := true, repeats := true },
    { long := "paths", takesValue := true, repeats := true }]

/-- Take an item of `index`. -/
def takeIndex (a : IndexArguments) : Item → Except Stop IndexArguments
  | .value "cache-path" text => do return { a with cachePath := some (← path text) }
  | .value "directories" text => do
      return { a with directories := a.directories ++ (← (values text).mapM path) }
  | .value "paths" text => do return { a with paths := a.paths ++ (← (values text).mapM path) }
  | _ => .error .malformed

/-- The switches of `rules`. -/
def rulesSwitches : List Switch := [{ long := "format", short := some 'f', takesValue := true }]

/-- Take an item of `rules`. -/
def takeRules (_ : ListingFormat) : Item → Except Stop ListingFormat
  | .value "format" text => orMalformed (ListingFormat.ofText? text)
  | _ => .error .malformed

/-- The switches of `init`. -/
def initSwitches : List Switch := [{ long := "force" }]

/-- Take an item of `init`. -/
def takeInit (_ : Bool) : Item → Except Stop Bool
  | .flag "force" => .ok true
  | _ => .error .malformed

/-- The names of the commands, and of the one that explains them. -/
def names : List String := ["lint", "index", "rules", "init", "help"]

/-- The command of a name and its arguments. A text from standard input leaves no room for paths. -/
def readRequest (name : String) (arguments : List String) : Except Stop (Common × Request) :=
  match name with
  | "lint" => do
      let (common, a) ← readArguments lintSwitches takeLint {} arguments
      if a.fromInput && !a.paths.isEmpty then throw .malformed
      return (common, .lint a)
  | "index" => do
      let (common, a) ← readArguments indexSwitches takeIndex {} arguments
      return (common, .index a)
  | "rules" => do
      let (common, format) ← readArguments rulesSwitches takeRules .text arguments
      return (common, .rules format)
  | "init" => do
      let (common, force) ← readArguments initSwitches takeInit false arguments
      return (common, .init force)
  | "help" =>
      match arguments with
      | [] => .error .help
      | [name] => .error (if names.contains name then .help else .malformed)
      | _ => .error .malformed
  | _ => .error .malformed

/-! ## The command line -/

/-- The switches that may stand before the name of the command. -/
def topSwitches : List Switch := commonSwitches ++ [{ long := "version", short := some 'V' }]

/-- Take an item before the name of the command that is not a common one. -/
def takeTop (_ : Unit) : Item → Except Stop Unit
  | .flag "version" => .error .version
  | _ => .error .malformed

/-- **Read a command line.** -/
def parse (arguments : List String) : Except Stop Invocation := do
  let (before, left) := items topSwitches true none arguments
  let (outer, ()) ← takeItems topSwitches (takeItem takeTop) [] ({}, ()) before
  match left with
  | [] => throw .malformed
  | name :: rest =>
      let (inner, request) ← readRequest name rest
      return { common := { config := inner.config.or outer.config
                           verbose := inner.verbose || outer.verbose }
               request }

end SwiftStyle.Command
