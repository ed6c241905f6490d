/-!
# Decimal/Nearest — the binary float nearest to a decimal

A decimal is a quotient of natural numbers, so rounding is exact arithmetic. A float is given by its
64 bits: for numbers from 0 up, the order of the bits is the order of the numbers.
-/

namespace SwiftStyle.Decimal

/-- The quotient `num / den`, rounded to a natural number; a half goes to the even neighbour. -/
def roundedQuotient (num den : Nat) : Nat :=
  let q := num / den
  let twice := 2 * (num % den)
  if den < twice || (den == twice && q % 2 == 1) then q + 1 else q

/-- Numerator and denominator of `num / den / 2 ^ k`. -/
def scaled (num den : Nat) (k : Int) : Nat × Nat :=
  match k with
  | .ofNat k => (num, den * Nat.pow 2 k)
  | .negSucc k => (num * Nat.pow 2 (k + 1), den)

/-- The power of two that is the unit in the last place of floats near `num / den`: 53 bits stand
above it, or fewer for the smallest numbers. -/
def unitExponent (num den : Nat) : Int :=
  let guess : Int := (Nat.log2 num : Int) - Nat.log2 den - 52
  let (n, d) := scaled num den guess
  max (if Nat.pow 2 52 ≤ n / d then guess else guess - 1) (-1074)

/-- The bits of infinity. -/
def infinityBits : Nat := 0x7FF * Nat.pow 2 52

/-- The bits of the float nearest to `num / den`; those of infinity when it is beyond every
float. -/
def quotientBits (num den : Nat) : Nat :=
  if num = 0 then 0
  else
    let k := unitExponent num den
    let (n, d) := scaled num den k
    min ((k + 1074).toNat * Nat.pow 2 52 + roundedQuotient n d) infinityBits

/-- **The bits of the float nearest to `digits * 10 ^ exponent`.** Exponents far beyond the range of
floats are not multiplied out. -/
def nearestBits (digits : Nat) (exponent : Int) : Nat :=
  if digits = 0 then 0
  else if 400 < exponent then infinityBits
  else if exponent + (Nat.log2 digits : Int) < -2000 then 0
  else
    match exponent with
    | .ofNat e => quotientBits (digits * Nat.pow 10 e) 1
    | .negSucc e => quotientBits digits (Nat.pow 10 (e + 1))

end SwiftStyle.Decimal
