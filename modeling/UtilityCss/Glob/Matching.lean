import UtilityCss.Glob.Basic

/-!
Which paths a pattern matches. Matching goes by bytes: `?` is one byte that is no slash, `*` any
number of them, and a class is one byte. A token leads from a text to what may be left of it.
-/

set_option autoImplicit false

namespace UtilityCss.Glob

abbrev Bytes := List UInt8

def slash : UInt8 := 47

def charBytes (c : Char) : Bytes := (String.utf8EncodeChar c)

def tails : Bytes → List Bytes
  | [] => [[]]
  | b :: rest => (b :: rest) :: tails rest

def tailsInName : Bytes → List Bytes
  | [] => [[]]
  | b :: rest => (b :: rest) :: (if b = slash then [] else tailsInName rest)

def tailsBehindSlash : Bytes → List Bytes
  | [] => []
  | b :: rest => if b = slash then rest :: tailsBehindSlash rest else tailsBehindSlash rest

/-- The bytes of a class: characters stand for each of their bytes, and a range goes from the last
byte of its first character to the first byte of its last. -/
def rangeBytes (range : Char × Char) : List (UInt8 × UInt8) :=
  let (first, last) := range
  let single (b : UInt8) := (b, b)
  if first = last then (charBytes first).map single
  else match (charBytes first).getLast?, (charBytes last).head? with
    | some low, some high =>
      (charBytes first).dropLast.map single ++ (low, high) :: (charBytes last).tail.map single
    | _, _ => []

def inRanges (ranges : List (Char × Char)) (b : UInt8) : Bool :=
  (ranges.flatMap rangeBytes).any fun (low, high) => low ≤ b && b ≤ high

mutual

def silent : List Token → Bool
  | [] => true
  | .alternatives branches :: rest => allSilent branches && silent rest
  | _ :: _ => false

def allSilent : List (List Token) → Bool
  | [] => true
  | branch :: branches => silent branch && allSilent branches

end

mutual

def leftAfter : Token → Bytes → List Bytes
  | .literal c, text => ((charBytes c).isPrefixOf? text).toList
  | .anyOne, text =>
    match text with
    | b :: rest => if b = slash then [] else [rest]
    | [] => []
  | .star, text => tailsInName text
  | .leading, text => text :: tailsBehindSlash text
  | .trailing, text =>
    match text with
    | b :: rest => if b = slash then tails rest else []
    | [] => []
  | .between, text =>
    match text with
    | b :: rest => if b = slash then rest :: tailsBehindSlash rest else []
    | [] => []
  | .oneOf negated ranges, text =>
    match text with
    | b :: rest => if inRanges ranges b ≠ negated then [rest] else []
    | [] => []
  | .alternatives branches, text =>
    if allSilent branches then [text] else (leftAfterAny branches text).eraseDups

def leftAfterAll : List Token → Bytes → List Bytes
  | [], text => [text]
  | token :: tokens, text => ((leftAfter token text).flatMap (leftAfterAll tokens)).eraseDups

def leftAfterAny : List (List Token) → Bytes → List Bytes
  | [], _ => []
  | branch :: branches, text =>
    (if silent branch then [] else leftAfterAll branch text) ++ leftAfterAny branches text

end

def isMatch (glob : Glob) (text : String) : Bool :=
  match glob.tokens with
  | [.leading] => true
  | tokens => (leftAfterAll tokens text.toUTF8.data.toList).contains []

end UtilityCss.Glob
