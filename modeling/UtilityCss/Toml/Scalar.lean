import UtilityCss.Text.Cut
import UtilityCss.Value.Basic

set_option autoImplicit false

namespace UtilityCss.Toml

def isHexDigit (c : Char) : Bool :=
  c.isDigit || ('a' ≤ c && c ≤ 'f') || ('A' ≤ c && c ≤ 'F')

def digitValue (c : Char) : Nat :=
  if c.isDigit then c.toNat - '0'.toNat
  else if 'a' ≤ c then c.toNat - 'a'.toNat + 10
  else c.toNat - 'A'.toNat + 10

def numeral (base : Nat) (digits : List Char) : Nat :=
  digits.foldl (fun n c => base * n + digitValue c) 0

def digits? (isDigit : Char → Bool) (text : List Char) : Option (List Char) :=
  let groups := Text.split '_' text
  if groups.all fun group => !group.isEmpty && group.all isDigit then some groups.flatten else none

def wholeDigits? (text : List Char) : Option (List Char) :=
  match digits? Char.isDigit text with
  | some ('0' :: _ :: _) => none
  | digits => digits

def sign : List Char → Bool × List Char
  | '-' :: rest => (true, rest)
  | '+' :: rest => (false, rest)
  | text => (false, text)

def inRange (n : Int) : Option Value :=
  if -Int.pow 2 63 ≤ n ∧ n < Int.pow 2 63 then some (.integer n) else none

def integer? : List Char → Option Value
  | '0' :: 'x' :: text => do inRange (numeral 16 (← digits? isHexDigit text))
  | '0' :: 'o' :: text => do inRange (numeral 8 (← digits? (fun c => '0' ≤ c && c ≤ '7') text))
  | '0' :: 'b' :: text => do inRange (numeral 2 (← digits? (fun c => c = '0' || c = '1') text))
  | text => do
    let (negative, text) := sign text
    let n := numeral 10 (← wholeDigits? text)
    inRange (if negative then -n else n)

def exponent? (text : List Char) : Option Int := do
  let (negative, text) := sign text
  let n := numeral 10 (← digits? Char.isDigit text)
  some (if negative then -n else n)

def pointed? (text : List Char) : Option (List Char × List Char) :=
  match Text.splitOnce '.' text with
  | none => (wholeDigits? text).map fun whole => (whole, [])
  | some (whole, fraction) => do
    some (← wholeDigits? whole, ← digits? Char.isDigit fraction)

def isExponentMark (c : Char) : Bool := c = 'e' || c = 'E'

/-- A finite numeral has a fraction or an exponent, and its value does not overflow. -/
def float? (text : List Char) : Option Value := do
  let (negative, body) := sign text
  if body = ['i', 'n', 'f'] then return .float (.infinite negative)
  if body = ['n', 'a', 'n'] then return .float .nan
  let mantissa := body.takeWhile fun c => !isExponentMark c
  let (whole, fraction) ← pointed? mantissa
  let power ← match body.dropWhile fun c => !isExponentMark c with
    | [] => if fraction.isEmpty then none else some 0
    | _ :: text => exponent? text
  match Binary64.ofDecimal negative (numeral 10 (whole ++ fraction)) (power - fraction.length) with
  | .infinite _ => none
  | number => some (.float number)

def scalar? (text : List Char) : Option Value :=
  if text = ['t', 'r', 'u', 'e'] then some (.boolean true)
  else if text = ['f', 'a', 'l', 's', 'e'] then some (.boolean false)
  else integer? text <|> float? text <|> (Datetime.read? text).map .datetime

end UtilityCss.Toml
