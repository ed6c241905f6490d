/-!
# Toml/Value — the values of a TOML document

Numbers are kept exactly: an integer as such, a float as the 64 bits of its binary form. A table is
a list of entries in which no key occurs twice.
-/

namespace SwiftStyle.Toml

/-- A calendar date. -/
structure Date where
  year : Nat
  month : Nat
  day : Nat
deriving DecidableEq, Repr

/-- A time of day. -/
structure Time where
  hour : Nat
  minute : Nat
  second : Nat
  nanosecond : Nat
deriving DecidableEq, Repr

/-- The distance of a clock from universal time. -/
inductive ClockOffset
  | zulu
  | minutes (east : Int)
deriving DecidableEq, Repr

/-- A date, a time, or both with an optional clock offset. -/
inductive Moment
  | date (d : Date)
  | time (t : Time)
  | dateTime (d : Date) (t : Time) (offset : Option ClockOffset)
deriving DecidableEq, Repr

/-- A TOML value. -/
inductive Value where
  | string (text : String)
  | integer (i : Int)
  | float (bits : UInt64)
  | boolean (b : Bool)
  | moment (m : Moment)
  | array (items : List Value)
  | table (entries : List (String × Value))
deriving Repr, Inhabited

/-- A table: keys and their values. -/
abbrev Table := List (String × Value)

/-- The value of a key. -/
def Table.get? (t : Table) (key : String) : Option Value :=
  (t.find? (·.1 == key)).map (·.2)

namespace Value

/-- The text of a string value. -/
def asString? : Value → Option String
  | string text => some text
  | _ => none

/-- The number of an integer value. -/
def asInteger? : Value → Option Int
  | integer i => some i
  | _ => none

/-- The truth value of a boolean. -/
def asBoolean? : Value → Option Bool
  | boolean b => some b
  | _ => none

end Value

end SwiftStyle.Toml
