import SwiftStyle.Toml.Lexical
import SwiftStyle.Toml.Value

/-!
# Toml/Moments — dates and times

Reading checks the calendar: months have their days, and a minute may have a leap second. A fraction
of a second is cut after nine digits. Writing uses `T` between date and time and drops the zeros at
the end of a fraction.
-/

namespace SwiftStyle.Toml

/-! ## Reading -/

/-- The number that decimal digits stand for. -/
def decimalNumber (digits : List Char) : Nat := digits.foldl (fun n c => 10 * n + (c.toNat - 48)) 0

/-- A number of exactly `count` digits. -/
def fixedNumber? (count : Nat) : Reader Nat := fun text =>
  let ds := text.take count
  if ds.length == count && ds.all Char.isDigit then some (decimalNumber ds, text.drop count)
  else none

/-- A number of two digits between two bounds. -/
def boundedNumber? (least most : Nat) : Reader Nat := fun text => do
  let (n, rest) ← fixedNumber? 2 text
  if least ≤ n && n ≤ most then return (n, rest) else none

/-- What follows a given character. -/
def mark? (c : Char) : List Char → Option (List Char)
  | d :: rest => if c == d then some rest else none
  | [] => none

/-- Leap years of the Gregorian calendar. -/
def isLeapYear (year : Nat) : Bool := year % 4 == 0 && (year % 100 != 0 || year % 400 == 0)

/-- Days of a month. -/
def daysIn (year month : Nat) : Nat :=
  match month with
  | 2 => if isLeapYear year then 29 else 28
  | 4 | 6 | 9 | 11 => 30
  | _ => 31

/-- A date. -/
def date? : Reader Date := fun text => do
  let (year, rest) ← fixedNumber? 4 text
  let (month, rest) ← boundedNumber? 1 12 (← mark? '-' rest)
  let (day, rest) ← boundedNumber? 1 31 (← mark? '-' rest)
  if day ≤ daysIn year month then return (⟨year, month, day⟩, rest) else none

/-- Billionths of a second, after the point. -/
def nanoseconds? : Reader Nat := fun text =>
  let ds := text.takeWhile Char.isDigit
  if ds.isEmpty then none
  else
    let nine := ds.take 9
    some (decimalNumber nine * Nat.pow 10 (9 - nine.length), text.drop ds.length)

/-- A time of day. -/
def time? : Reader Time := fun text => do
  let (hour, rest) ← boundedNumber? 0 23 text
  let (minute, rest) ← boundedNumber? 0 59 (← mark? ':' rest)
  let (second, rest) ← boundedNumber? 0 60 (← mark? ':' rest)
  match (mark? '.' rest).bind nanoseconds? with
  | some (nanosecond, rest) => return (⟨hour, minute, second, nanosecond⟩, rest)
  | none => return (⟨hour, minute, second, 0⟩, rest)

/-- A clock offset. -/
def clockOffset? : Reader ClockOffset := fun text =>
  match text with
  | [] => none
  | c :: rest =>
      if c == 'Z' || c == 'z' then some (.zulu, rest)
      else if c == '+' || c == '-' then do
        let (hour, rest) ← boundedNumber? 0 23 rest
        let (minute, rest) ← boundedNumber? 0 59 (← mark? ':' rest)
        let minutes : Int := hour * 60 + minute
        return (.minutes (if c == '-' then -minutes else minutes), rest)
      else none

/-- The time after a date, with the character between them and the clock offset. -/
def timeAfterDate? : Reader (Time × Option ClockOffset) := fun text =>
  match text with
  | [] => none
  | c :: rest =>
      if c == 'T' || c == 't' || c == ' ' then do
        let (time, rest) ← time? rest
        match clockOffset? rest with
        | some (offset, rest) => return ((time, some offset), rest)
        | none => return ((time, none), rest)
      else none

/-- **A date, a time, or both.** -/
def moment? : Reader Moment := fun text =>
  match date? text with
  | some (date, rest) =>
      match timeAfterDate? rest with
      | some ((time, offset), rest) => some (.dateTime date time offset, rest)
      | none => some (.date date, rest)
  | none => (time? text).map fun (time, rest) => (.time time, rest)

/-! ## Writing -/

/-- A number with zeros in front, up to a width. -/
def padded (width n : Nat) : String :=
  let ds := toString n
  "".pushn '0' (width - ds.length) ++ ds

/-- A date as it is written. -/
def Date.text (d : Date) : String := s!"{padded 4 d.year}-{padded 2 d.month}-{padded 2 d.day}"

/-- A fraction of a second as it is written. -/
def fractionText (nanosecond : Nat) : String :=
  if nanosecond = 0 then ""
  else
    let ds := (padded 9 nanosecond).toList
    "." ++ String.ofList (ds.reverse.dropWhile (· == '0')).reverse

/-- A time as it is written. -/
def Time.text (t : Time) : String :=
  s!"{padded 2 t.hour}:{padded 2 t.minute}:{padded 2 t.second}" ++ fractionText t.nanosecond

/-- A clock offset as it is written. -/
def ClockOffset.text : ClockOffset → String
  | zulu => "Z"
  | minutes east =>
      (if east < 0 then "-" else "+") ++ padded 2 (east.natAbs / 60) ++ ":"
        ++ padded 2 (east.natAbs % 60)

/-- **A moment as it is written.** -/
def Moment.text : Moment → String
  | date d => d.text
  | time t => t.text
  | dateTime d t offset => d.text ++ "T" ++ t.text ++ (offset.map ClockOffset.text).getD ""

end SwiftStyle.Toml
