import UtilityCss.Decimal.Binary64

/-!
The shortest decimal numeral of a double-precision number: of all numerals with the fewest digits
that read back as the number, the one nearest to it. It is written without an exponent and always
with a point.
-/

set_option autoImplicit false

namespace UtilityCss.Binary64

/-- The numbers between the two fractions read back as the number; its ends do so for an even
mantissa. All three are in quarters of the last place. -/
structure ReadsBack where
  low : Nat
  value : Nat
  high : Nat
  closed : Bool
  exponent : Int

def readsBack (mantissa : Nat) (exponent : Int) : ReadsBack where
  low := 4 * mantissa - (if mantissa = Nat.pow 2 52 ∧ leastExponent < exponent then 1 else 2)
  value := 4 * mantissa
  high := 4 * mantissa + 2
  closed := mantissa % 2 = 0
  exponent := exponent - 2

namespace ReadsBack

def scaled (r : ReadsBack) (power : Int) (count quarters : Nat) : Nat × Nat :=
  let (count, below) := dividedByPower 10 (-power) count 1
  let (quarters, under) := dividedByPower 2 (-r.exponent) quarters 1
  (count * under, quarters * below)

def contains (r : ReadsBack) (power : Int) (count : Nat) : Bool :=
  let (aboveLow, low) := r.scaled power count r.low
  let (belowHigh, high) := r.scaled power count r.high
  if r.closed then low ≤ aboveLow && belowHigh ≤ high else low < aboveLow && belowHigh < high

def distance (r : ReadsBack) (power : Int) (count : Nat) : Nat :=
  let (there, here) := r.scaled power count r.value
  (there - here) + (here - there)

/-- The numeral on the grid of a power of ten that reads back, the nearer one of two. -/
def onGrid? (r : ReadsBack) (power : Int) : Option Nat :=
  let (unit, value) := r.scaled power 1 r.value
  let below := value / unit
  match r.contains power below, r.contains power (below + 1) with
  | true, true =>
    if r.distance power (below + 1) < r.distance power below then some (below + 1) else some below
  | true, false => some below
  | false, true => some (below + 1)
  | false, false => none

def search (r : ReadsBack) : Nat → Int → Nat × Int
  | 0, power => (0, power)
  | tries + 1, power =>
    match r.onGrid? power with
    | some digits => (digits, power)
    | none => search r tries (power - 1)

end ReadsBack

def shortest (mantissa : Nat) (exponent : Int) : Nat × Int :=
  if mantissa = 0 then (0, 0)
  else
    let (top, bottom) := dividedByPower 2 (-exponent) mantissa 1
    -- The power of ten of a quotient is this difference or one less.
    let guess : Int := digitCount top - digitCount bottom
    (readsBack mantissa exponent).search 18 (floorLog 10 guess top bottom)

def positional (digits : Nat) (power : Int) : List Char :=
  let written := Nat.toDigits 10 digits
  if 0 ≤ power then written ++ List.replicate power.natAbs '0' ++ ['.', '0']
  else
    let places := power.natAbs
    let padded := List.replicate (places + 1 - written.length) '0' ++ written
    let whole := padded.take (padded.length - places)
    let fraction := ((padded.drop (padded.length - places)).reverse.dropWhile (· = '0')).reverse
    whole ++ '.' :: (if fraction.isEmpty then ['0'] else fraction)

def toText : Binary64 → String
  | .nan => "nan"
  | .infinite negative => if negative then "-inf" else "inf"
  | .finite negative mantissa exponent =>
    let (digits, power) := shortest mantissa exponent
    String.ofList ((if negative then ['-'] else []) ++ positional digits power)

end UtilityCss.Binary64
