import SwiftStyle.Decimal.Nearest
import SwiftStyle.Toml.Lexical
import SwiftStyle.Toml.Value

/-!
# Toml/Numbers — integers and floats

Digits may be parted by single underscores. Integers have 64 bits. A float is rounded to the nearest
one with 64 bits; a positive number beyond them all is refused, and a negative one is infinite.
-/

namespace SwiftStyle.Toml

/-- Digits that satisfy `p`, with single underscores between them. The underscores are dropped. -/
def digits? (p : Char → Bool) : Reader (List Char)
  | [] => none
  | c :: rest =>
      if !p c then none
      else
        match rest with
        | '_' :: d :: after =>
            if p d then (digits? p (d :: after)).map fun (ds, r) => (c :: ds, r)
            else some ([c], rest)
        | d :: after =>
            if p d then (digits? p (d :: after)).map fun (ds, r) => (c :: ds, r)
            else some ([c], rest)
        | [] => some ([c], [])

/-- The value of a digit in bases up to sixteen. -/
def digitValue (c : Char) : Nat :=
  if c.isDigit then c.toNat - 48 else if c.isUpper then c.toNat - 55 else c.toNat - 87

/-- The number that digits stand for in a base. -/
def number (base : Nat) (digits : List Char) : Nat :=
  digits.foldl (fun n c => n * base + digitValue c) 0

/-- Whether a character is a digit of base 16. -/
def isHexDigit (c : Char) : Bool :=
  c.isDigit || ('a' ≤ c && c ≤ 'f') || ('A' ≤ c && c ≤ 'F')

/-- A sign; nothing counts as plus. The answer tells whether it is minus. -/
def sign : List Char → Bool × List Char
  | '+' :: rest => (false, rest)
  | '-' :: rest => (true, rest)
  | text => (false, text)

/-- Decimal digits, of which the first is no zero unless it is the only one. -/
def wholeDigits? : Reader (List Char)
  | '0' :: rest => some (['0'], rest)
  | text => digits? Char.isDigit text

/-! ## Integers -/

/-- An integer of 64 bits. -/
def inRange? (i : Int) : Option Int :=
  if -Int.ofNat (Nat.pow 2 63) ≤ i && i < Int.ofNat (Nat.pow 2 63) then some i else none

/-- An integer in a base, after the mark of the base. -/
def basedInteger? (base : Nat) (p : Char → Bool) : Reader Value := fun text => do
  let (ds, rest) ← digits? p text
  return (.integer (← inRange? (number base ds)), rest)

/-- **An integer.** -/
def integer? : Reader Value := fun text =>
  match text with
  | '0' :: 'x' :: rest => basedInteger? 16 isHexDigit rest
  | '0' :: 'o' :: rest => basedInteger? 8 (fun c => '0' ≤ c && c ≤ '7') rest
  | '0' :: 'b' :: rest => basedInteger? 2 (fun c => c == '0' || c == '1') rest
  | _ => do
      let (negative, rest) := sign text
      let (ds, rest) ← wholeDigits? rest
      let n : Int := number 10 ds
      return (.integer (← inRange? (if negative then -n else n)), rest)

/-! ## Floats -/

/-- A float from a sign and the bits of its magnitude. -/
def signedFloat (negative : Bool) (bits : Nat) : Value :=
  .float (UInt64.ofNat (if negative then bits + Nat.pow 2 63 else bits))

/-- An exponent, with its letter. -/
def exponent? : Reader Int := fun text =>
  match text with
  | c :: rest =>
      if c == 'e' || c == 'E' then do
        let (negative, rest) := sign rest
        let (ds, rest) ← digits? Char.isDigit rest
        let n : Int := number 10 ds
        return (if negative then -n else n, rest)
      else none
  | [] => none

/-- The digits after a point. -/
def fraction? : Reader (List Char) := fun text =>
  match text with
  | '.' :: rest => digits? Char.isDigit rest
  | _ => none

/-- A float that is written with digits. -/
def decimalFloat? : Reader Value := fun text => do
  let (negative, rest) := sign text
  let (whole, rest) ← wholeDigits? rest
  let (frac, exp, rest) ←
    match fraction? rest with
    | some (frac, rest) =>
        match exponent? rest with
        | some (exp, rest) => some (frac, exp, rest)
        | none => some (frac, 0, rest)
    | none => (exponent? rest).map fun (exp, rest) => ([], exp, rest)
  let bits := Decimal.nearestBits (number 10 (whole ++ frac)) (exp - (frac.length : Int))
  if bits == Decimal.infinityBits && !negative then none
  else return (signedFloat negative bits, rest)

/-- Infinity, and what is not a number. -/
def specialFloat? : Reader Value := fun text =>
  let (negative, rest) := sign text
  match rest with
  | 'i' :: 'n' :: 'f' :: rest => some (signedFloat negative Decimal.infinityBits, rest)
  | 'n' :: 'a' :: 'n' :: rest => some (signedFloat negative (Decimal.infinityBits + Nat.pow 2 51), rest)
  | _ => none

/-- **A float.** -/
def float? : Reader Value := fun text => (decimalFloat? text).or (specialFloat? text)

end SwiftStyle.Toml
