set_option autoImplicit false

namespace UtilityCss

/-- A finite number is `mantissa * 2 ^ exponent` under a sign, with fewer than 54 bits in the
mantissa and the least exponent that its size allows. -/
inductive Binary64 where
  | finite (negative : Bool) (mantissa : Nat) (exponent : Int)
  | infinite (negative : Bool)
  | nan
  deriving DecidableEq, Repr

namespace Binary64

def leastExponent : Int := -1074

def greatestExponent : Int := 971

def zero (negative : Bool) : Binary64 := .finite negative 0 leastExponent

def roundedQuotient (numerator denominator : Nat) : Nat :=
  let quotient := numerator / denominator
  let rest := numerator % denominator
  if 2 * rest < denominator then quotient
  else if denominator < 2 * rest then quotient + 1
  else if quotient % 2 = 0 then quotient
  else quotient + 1

def dividedByPower (base : Nat) (power : Int) (numerator denominator : Nat) : Nat × Nat :=
  if power < 0 then (numerator * base.pow power.natAbs, denominator)
  else (numerator, denominator * base.pow power.natAbs)

/-- The greatest power of the base that does not exceed a positive fraction. The guess is this power
or the one after it. -/
def floorLog (base : Nat) (guess : Int) (numerator denominator : Nat) : Int :=
  let (top, bottom) := dividedByPower base guess numerator denominator
  if bottom ≤ top then guess else guess - 1

def ofMantissa (negative : Bool) (mantissa : Nat) (exponent : Int) : Binary64 :=
  if greatestExponent < exponent then .infinite negative
  else .finite negative mantissa exponent

def ofFraction (negative : Bool) (numerator denominator : Nat) : Binary64 :=
  if numerator = 0 then zero negative
  else
    let guess : Int := numerator.log2 - denominator.log2
    let exponent := max leastExponent (floorLog 2 guess numerator denominator - 52)
    let (top, bottom) := dividedByPower 2 exponent numerator denominator
    let mantissa := roundedQuotient top bottom
    -- Rounding up may carry into one more bit.
    if mantissa = Nat.pow 2 53 then ofMantissa negative (Nat.pow 2 52) (exponent + 1)
    else ofMantissa negative mantissa exponent

def digitCount (n : Nat) : Nat := (Nat.toDigits 10 n).length

def ofDecimal (negative : Bool) (digits : Nat) (power : Int) : Binary64 :=
  let size : Int := digitCount digits + power
  if digits = 0 ∨ size < -400 then zero negative
  else if 400 < size then .infinite negative
  else
    let (top, bottom) := dividedByPower 10 (-power) digits 1
    ofFraction negative top bottom

end Binary64

end UtilityCss
