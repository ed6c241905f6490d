/-!
# Command/Items — the options and words of a command line

Arguments are read against a list of switches. A switch is written in full after two hyphens or as a
single letter after one; letters may be joined, and the last of them may be followed by its value. A
lone `--` ends the options. The result is a list of items, which are read up to the first malformed
one.
-/

namespace SwiftStyle.Command

/-- An option of a command. -/
structure Switch where
  long : String
  short : Option Char := none
  takesValue : Bool := false
  /-- Whether it may stand more than once. -/
  repeats : Bool := false
deriving DecidableEq, Repr

/-- An item of a command line; a switch is given by its long name. -/
inductive Item
  | flag (name : String)
  | value (name text : String)
  | word (text : String)
  | malformed
deriving DecidableEq, Repr

/-- The items of joined letters, and the switch whose value is still to come. -/
def ofLetters (switches : List Switch) : List Char → List Item × Option Switch
  | [] => ([], none)
  | c :: rest =>
      match switches.find? (·.short == some c) with
      | none => ([.malformed], none)
      | some s =>
          if s.takesValue then
            match rest with
            | [] => ([], some s)
            | '=' :: text => ([.value s.long (String.ofList text)], none)
            | text => ([.value s.long (String.ofList text)], none)
          else
            let (items, pending) := ofLetters switches rest
            (.flag s.long :: items, pending)

/-- The item of a switch that is written in full, and the switch whose value is still to come. -/
def ofName (switches : List Switch) (text : List Char) : List Item × Option Switch :=
  let name := String.ofList (text.takeWhile (· != '='))
  match switches.find? (·.long == name), text.dropWhile (· != '=') with
  | none, _ => ([.malformed], none)
  | some s, [] => if s.takesValue then ([], some s) else ([.flag s.long], none)
  | some s, _ :: value =>
      (if s.takesValue then [.value s.long (String.ofList value)] else [.malformed], none)

/-- The items of an argument that holds switches; `none` for a word. A lone hyphen is a word. -/
def ofSwitches? (switches : List Switch) (argument : String) :
    Option (List Item × Option Switch) :=
  match argument.toList with
  | '-' :: '-' :: text => some (ofName switches text)
  | '-' :: c :: text => some (ofLetters switches (c :: text))
  | _ => none

/-- The items of arguments after a lone `--`. -/
def ofWords (endsAtWord : Bool) (arguments : List String) : List Item :=
  if endsAtWord then if arguments.isEmpty then [] else [.malformed]
  else arguments.map Item.word

/-- **The items of a command line**, and the arguments that are left when it `endsAtWord`. `pending`
is the switch whose value comes next. -/
def items (switches : List Switch) (endsAtWord : Bool) :
    Option Switch → List String → List Item × List String
  | none, [] => ([], [])
  | some _, [] => ([.malformed], [])
  | pending, argument :: rest =>
      if argument = "--" then
        (if pending.isSome then [.malformed] else ofWords endsAtWord rest, [])
      else
        match ofSwitches? switches argument, pending with
        | some _, some _ => ([.malformed], [])
        | some (found, next), none =>
            let (more, left) := items switches endsAtWord next rest
            (found ++ more, left)
        | none, some s =>
            let (more, left) := items switches endsAtWord none rest
            (.value s.long argument :: more, left)
        | none, none =>
            if endsAtWord then ([], argument :: rest)
            else
              let (more, left) := items switches endsAtWord none rest
              (.word argument :: more, left)

end SwiftStyle.Command
