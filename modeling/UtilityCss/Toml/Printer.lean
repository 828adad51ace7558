import UtilityCss.Decimal.Shortest
import UtilityCss.Value.Basic

set_option autoImplicit false

namespace UtilityCss.Toml

structure Contents where
  controls : Bool
  backslash : Bool
  lineFeed : Bool
  singleRun : Nat
  doubleRun : Nat

def longestRun (mark : Char) (current : Nat) : List Char → Nat
  | [] => current
  | c :: rest =>
    if c = mark then longestRun mark (current + 1) rest else max current (longestRun mark 0 rest)

def isControl (c : Char) : Bool := c.toNat < 0x20 || c.toNat = 0x7F

def Contents.of (text : List Char) : Contents where
  controls := text.any fun c => isControl c && c ≠ '\t' && c ≠ '\n'
  backslash := text.contains '\\'
  lineFeed := text.contains '\n'
  singleRun := longestRun '\'' 0 text
  doubleRun := longestRun '"' 0 text

inductive Quotes where
  | double
  | single
  | tripleDouble
  | tripleSingle
  deriving DecidableEq, Repr

def Quotes.choose (c : Contents) : Quotes :=
  if !c.controls && !c.backslash && c.doubleRun = 0 && !c.lineFeed then .double
  else if !c.controls && c.singleRun = 0 && !c.lineFeed then .single
  else if !c.controls && !c.backslash && c.doubleRun ≤ 2 then .tripleDouble
  else if !c.controls && c.singleRun ≤ 2 then .tripleSingle
  else if c.lineFeed then .tripleDouble
  else .double

def hexCode (n : Nat) : List Char :=
  [n / 4096 % 16, n / 256 % 16, n / 16 % 16, n % 16].map fun d => (Nat.digitChar d).toUpper

/-- A text with escapes. `allowed` quotes in a row need none, `run` of them have just been written;
line feeds stay as they are in blocks. -/
def escape (block : Bool) (allowed run : Nat) : List Char → List Char
  | [] => []
  | c :: rest =>
    if c = '"' then
      if run < allowed then '"' :: escape block allowed (run + 1) rest
      else '\\' :: '"' :: escape block allowed 0 rest
    else
      let written :=
        if c = '\x08' then ['\\', 'b']
        else if c = '\t' then ['\\', 't']
        else if c = '\n' then (if block then ['\n'] else ['\\', 'n'])
        else if c = '\x0C' then ['\\', 'f']
        else if c = '\r' then ['\\', 'r']
        else if c = '\\' then ['\\', '\\']
        else if isControl c then '\\' :: 'u' :: hexCode c.toNat
        else [c]
      written ++ escape block allowed 0 rest

def quote (quotes : Quotes) (text : List Char) : List Char :=
  let first := if text.contains '\n' then ['\n'] else []
  match quotes with
  | .double => '"' :: escape false 0 0 text ++ ['"']
  | .single => '\'' :: text ++ ['\'']
  | .tripleDouble => ['"', '"', '"'] ++ first ++ escape true 2 0 text ++ ['"', '"', '"']
  | .tripleSingle => ['\'', '\'', '\''] ++ first ++ text ++ ['\'', '\'', '\'']

def writtenString (text : String) : List Char :=
  quote (Quotes.choose (Contents.of text.toList)) text.toList

def writtenKey (key : String) : List Char :=
  let text := key.toList
  let c := Contents.of text
  let controls := c.controls || c.lineFeed
  if !text.isEmpty && text.all fun c => c.isAlphanum || c = '_' || c = '-' then text
  else if !controls && !c.backslash && c.doubleRun = 0 then quote .double text
  else if !controls && c.singleRun = 0 then quote .single text
  else quote .double text

def entryRank : Value → Nat
  | .table _ => 2
  | .array items => if items.any Value.isTable then 1 else 0
  | _ => 0

def separated (pieces : List (List Char)) : List Char :=
  (pieces.intersperse [',', ' ']).flatten

mutual

def writtenValue : Value → List Char
  | .string text => writtenString text
  | .integer n => (toString n).toList
  | .float number => number.toText.toList
  | .boolean value => if value then ['t', 'r', 'u', 'e'] else ['f', 'a', 'l', 's', 'e']
  | .datetime value => value.toText.toList
  | .array items => '[' :: separated (writtenItems items) ++ [']']
  | .table entries =>
    let written := writtenEntries entries
    let ranked := [0, 1, 2].flatMap fun rank =>
      (written.filter fun entry => entry.1 = rank).map Prod.snd
    if ranked.isEmpty then ['{', '}'] else ['{', ' '] ++ separated ranked ++ [' ', '}']

def writtenItems : List Value → List (List Char)
  | [] => []
  | item :: rest => writtenValue item :: writtenItems rest

def writtenEntries : List (String × Value) → List (Nat × List Char)
  | [] => []
  | (key, value) :: rest =>
    (entryRank value, writtenKey key ++ [' ', '=', ' '] ++ writtenValue value) ::
      writtenEntries rest

end

def print (value : Value) : String := String.ofList (writtenValue value)

end UtilityCss.Toml
