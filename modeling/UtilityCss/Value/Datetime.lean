set_option autoImplicit false

namespace UtilityCss

structure Date where
  year : Nat
  month : Nat
  day : Nat
  deriving DecidableEq, Repr

structure Clock where
  hour : Nat
  minute : Nat
  second : Nat
  nanosecond : Nat
  deriving DecidableEq, Repr

inductive Offset where
  | utc
  | ahead (minutes : Int)
  deriving DecidableEq, Repr

inductive Datetime where
  | ofDate (date : Date)
  | ofClock (clock : Clock)
  | moment (date : Date) (clock : Clock) (offset : Option Offset)
  deriving DecidableEq, Repr

def fixedDigits? (count : Nat) (text : List Char) : Option (Nat × List Char) :=
  let digits := text.take count
  if digits.length = count ∧ digits.all Char.isDigit then
    some (digits.foldl (fun n c => 10 * n + (c.toNat - 48)) 0, text.drop count)
  else none

def padded (width n : Nat) : List Char :=
  let digits := Nat.toDigits 10 n
  List.replicate (width - digits.length) '0' ++ digits

namespace Date

def isLeap (year : Nat) : Bool := year % 4 = 0 && (year % 100 ≠ 0 || year % 400 = 0)

def daysIn (year month : Nat) : Nat :=
  if month = 2 then (if isLeap year then 29 else 28)
  else if month ∈ [4, 6, 9, 11] then 30
  else 31

def read? (text : List Char) : Option (Date × List Char) := do
  let (year, text) ← fixedDigits? 4 text
  let text ← ['-'].isPrefixOf? text
  let (month, text) ← fixedDigits? 2 text
  let text ← ['-'].isPrefixOf? text
  let (day, text) ← fixedDigits? 2 text
  if 1 ≤ month ∧ month ≤ 12 ∧ 1 ≤ day ∧ day ≤ daysIn year month then some (⟨year, month, day⟩, text)
  else none

def toText (d : Date) : List Char :=
  padded 4 d.year ++ '-' :: padded 2 d.month ++ '-' :: padded 2 d.day

end Date

namespace Clock

def nanoseconds (digits : List Char) : Nat :=
  ((digits ++ List.replicate 9 '0').take 9).foldl (fun n c => 10 * n + (c.toNat - 48)) 0

def readFraction? : List Char → Option (Nat × List Char)
  | '.' :: text =>
    let digits := text.takeWhile Char.isDigit
    if digits.isEmpty then none else some (nanoseconds digits, text.dropWhile Char.isDigit)
  | text => some (0, text)

def read? (text : List Char) : Option (Clock × List Char) := do
  let (hour, text) ← fixedDigits? 2 text
  let text ← [':'].isPrefixOf? text
  let (minute, text) ← fixedDigits? 2 text
  let (second, nanosecond, text) ← match [':'].isPrefixOf? text with
    | none => some (0, 0, text)
    | some text => do
      let (second, text) ← fixedDigits? 2 text
      let (nanosecond, text) ← readFraction? text
      some (second, nanosecond, text)
  if hour ≤ 23 ∧ minute ≤ 59 ∧ second ≤ 60 then some (⟨hour, minute, second, nanosecond⟩, text)
  else none

def toText (c : Clock) : List Char :=
  let whole := padded 2 c.hour ++ ':' :: padded 2 c.minute ++ ':' :: padded 2 c.second
  if c.nanosecond = 0 then whole
  else whole ++ '.' :: ((padded 9 c.nanosecond).reverse.dropWhile (· = '0')).reverse

end Clock

namespace Offset

def read? : List Char → Option (Offset × List Char)
  | c :: text =>
    if c = 'Z' ∨ c = 'z' then some (.utc, text)
    else if c = '+' ∨ c = '-' then do
      let (hours, text) ← fixedDigits? 2 text
      let text ← [':'].isPrefixOf? text
      let (minutes, text) ← fixedDigits? 2 text
      let total : Int := 60 * hours + minutes
      if hours ≤ 23 ∧ minutes ≤ 59 then some (.ahead (if c = '-' then -total else total), text)
      else none
    else none
  | [] => none

def toText : Offset → List Char
  | .utc => ['Z']
  | .ahead minutes =>
    (if minutes < 0 then '-' else '+') :: padded 2 (minutes.natAbs / 60) ++ ':' ::
      padded 2 (minutes.natAbs % 60)

end Offset

namespace Datetime

def read? (text : List Char) : Option Datetime :=
  match Date.read? text with
  | none => do
    let (clock, rest) ← Clock.read? text
    if rest.isEmpty then some (.ofClock clock) else none
  | some (date, []) => some (.ofDate date)
  | some (date, mark :: rest) =>
    if mark = 'T' ∨ mark = 't' ∨ mark = ' ' then do
      let (clock, rest) ← Clock.read? rest
      if rest.isEmpty then some (.moment date clock none)
      else
        let (offset, rest) ← Offset.read? rest
        if rest.isEmpty then some (.moment date clock (some offset)) else none
    else none

def toText : Datetime → String
  | .ofDate date => String.ofList date.toText
  | .ofClock clock => String.ofList clock.toText
  | .moment date clock offset =>
    String.ofList (date.toText ++ 'T' :: clock.toText ++ (offset.map Offset.toText).getD [])

end Datetime

end UtilityCss
