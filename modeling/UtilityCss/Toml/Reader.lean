import UtilityCss.Toml.Node
import UtilityCss.Toml.Quoted

set_option autoImplicit false

namespace UtilityCss.Toml

def isBareKeyChar (c : Char) : Bool := c.isAlphanum || c = '_' || c = '-'

def isSpace (c : Char) : Bool := c = ' ' || c = '\t'

def dropSpaces (text : List Char) : List Char := text.dropWhile isSpace

def dropGaps? (inComment : Bool) : List Char → Option (List Char)
  | [] => some []
  | '\n' :: rest => dropGaps? false rest
  | '\r' :: '\n' :: rest => dropGaps? false rest
  | c :: rest =>
    if inComment then (if isPrintable c then dropGaps? true rest else none)
    else if isSpace c then dropGaps? false rest
    else if c = '#' then dropGaps? true rest
    else some (c :: rest)

def dropLineEnd? (inComment : Bool) : List Char → Option (List Char)
  | [] => some []
  | '\n' :: rest => some rest
  | '\r' :: '\n' :: rest => some rest
  | c :: rest =>
    if inComment then (if isPrintable c then dropLineEnd? true rest else none)
    else if isSpace c then dropLineEnd? false rest
    else if c = '#' then dropLineEnd? true rest
    else none

def simpleKey? (text : List Char) : Option (String × List Char) :=
  match text with
  | '"' :: rest => (basicString? rest).map fun (key, after) => (String.ofList key, after)
  | '\'' :: rest => (literalString? rest).map fun (key, after) => (String.ofList key, after)
  | _ =>
    let key := text.takeWhile isBareKeyChar
    if key.isEmpty then none else some (String.ofList key, text.dropWhile isBareKeyChar)

def dottedKey? : Nat → List Char → Option (List String × List Char)
  | 0, _ => none
  | limit + 1, text => do
    let (key, rest) ← simpleKey? text
    match dropSpaces rest with
    | '.' :: rest => do
      let (keys, rest) ← dottedKey? limit (dropSpaces rest)
      some (key :: keys, rest)
    | rest => some ([key], rest)

def key? (text : List Char) : Option (List String × List Char) :=
  dottedKey? (text.length + 1) (dropSpaces text)

def endsScalar (c : Char) : Bool :=
  c ∈ [' ', '\t', '\n', '\r', '#', ',', '=', '[', ']', '{', '}', '"', '\'']

/-- A value without quotes or brackets. One space may stand between a date and a time. -/
def bare? (text : List Char) : Option (Value × List Char) := do
  let written := text.takeWhile fun c => !endsScalar c
  let rest := text.dropWhile fun c => !endsScalar c
  match Date.read? written, rest with
  | some (_, []), ' ' :: c :: _ =>
    if c.isDigit then
      let time := (rest.drop 1).takeWhile fun c => !endsScalar c
      some (← scalar? (written ++ ' ' :: time), (rest.drop 1).dropWhile fun c => !endsScalar c)
    else some (← scalar? written, rest)
  | _, _ => some (← scalar? written, rest)

def greatestDepth : Nat := 80

mutual

def value? : Nat → Nat → List Char → Option (Value × List Char)
  | 0, _, _ => none
  | steps + 1, depth, text =>
    match text with
    | '[' :: rest => if depth = 0 then none else items? steps (depth - 1) [] rest
    | '{' :: rest => if depth = 0 then none else pairs? steps (depth - 1) [] rest
    | '"' :: _ => (quoted? text).map fun (s, rest) => (.string (String.ofList s), rest)
    | '\'' :: _ => (quoted? text).map fun (s, rest) => (.string (String.ofList s), rest)
    | _ => bare? text

def items? : Nat → Nat → List Value → List Char → Option (Value × List Char)
  | 0, _, _, _ => none
  | steps + 1, depth, items, text => do
    match ← dropGaps? false text with
    | ']' :: rest => some (.array items.reverse, rest)
    | text => do
      let (item, rest) ← value? steps depth text
      match ← dropGaps? false rest with
      | ',' :: rest => items? steps depth (item :: items) rest
      | ']' :: rest => some (.array (item :: items).reverse, rest)
      | _ => none

def pairs? : Nat → Nat → List (String × Node) → List Char → Option (Value × List Char)
  | 0, _, _, _ => none
  | steps + 1, depth, entries, text => do
    match ← dropGaps? false text with
    | '}' :: rest => some (Node.toValue (.table .header entries), rest)
    | text => do
      let (key, rest) ← key? text
      let rest ← ['='].isPrefixOf? rest
      let (value, rest) ← value? steps depth (dropSpaces rest)
      let entries ← Node.put key value entries
      match ← dropGaps? false rest with
      | ',' :: rest => pairs? steps depth entries rest
      | '}' :: rest => some (Node.toValue (.table .header entries), rest)
      | _ => none

end

inductive Line where
  | table (path : List String)
  | listItem (path : List String)
  | pair (key : List String) (value : Value)

def line? (text : List Char) : Option (Line × List Char) :=
  match text with
  | '[' :: '[' :: rest => do
    let (path, rest) ← key? rest
    let rest ← [']', ']'].isPrefixOf? rest
    some (.listItem path, rest)
  | '[' :: rest => do
    let (path, rest) ← key? rest
    let rest ← [']'].isPrefixOf? rest
    some (.table path, rest)
  | _ => do
    let (key, rest) ← key? text
    let rest ← ['='].isPrefixOf? rest
    -- Two steps always take a character, so the steps are never exhausted.
    let (value, rest) ← value? (2 * text.length + 2) greatestDepth (dropSpaces rest)
    some (.pair key value, rest)

def lines? : Nat → List Char → Option (List Line)
  | 0, _ => none
  | steps + 1, text => do
    match ← dropGaps? false text with
    | [] => some []
    | text => do
      let (line, rest) ← line? text
      let rest ← dropLineEnd? false rest
      (lines? steps rest).map (line :: ·)

def sections : List Line → List (List String × Value) × List (Line × List (List String × Value))
  | [] => ([], [])
  | .pair key value :: rest =>
    let (pairs, headed) := sections rest
    ((key, value) :: pairs, headed)
  | header :: rest =>
    let (pairs, headed) := sections rest
    ([], (header, pairs) :: headed)

def addSection (entries : List (String × Node)) :
    Line × List (List String × Value) → Option (List (String × Node))
  | (.table path, pairs) => Node.atHeader (Node.openTable (Node.putAll pairs)) path entries
  | (.listItem path, pairs) => Node.atHeader (Node.appendTable (Node.putAll pairs)) path entries
  | (.pair key value, _) => Node.put key value entries

def read? (text : String) : Option (Table Value) := do
  let chars := match text.toList with
    | '\uFEFF' :: rest => rest
    | chars => chars
  let (pairs, headed) := sections (← lines? (chars.length + 1) chars)
  let entries ← headed.foldlM addSection (← Node.putAll pairs [])
  some (Node.toEntries entries)

end UtilityCss.Toml
