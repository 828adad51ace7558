import UtilityCss.Error
import UtilityCss.Text.Blank
import UtilityCss.Value.Basic

set_option autoImplicit false

namespace UtilityCss.Theme

inductive KeyPathFault where
  | empty
  | unclosed (path : String)
  | noSegments (path : String)
  deriving DecidableEq, Repr

namespace KeyPathFault

def message : KeyPathFault → String
  | .empty => "Empty path"
  | .unclosed path => "Unclosed '[' in path '" ++ path ++ "'"
  | .noSegments path => "No segments in path '" ++ path ++ "'"

def error (fault : KeyPathFault) : SettingsError := .invalidPath fault.message

end KeyPathFault

def isQuote (c : Char) : Bool := c = '\'' || c = '"'

def bareKeyPath (text : List Char) : List Char := Text.trimWhere isQuote (Text.trim text)

def finished (segment : List Char) : List (List Char) :=
  if segment.isEmpty then [] else [segment]

mutual

def plainSegments (current : List Char) : List Char → Option (List (List Char))
  | [] => some (finished current)
  | c :: rest =>
    if c = '.' then (plainSegments [] rest).map (finished current ++ ·)
    else if c = '[' then (bracketSegments [] rest).map (finished current ++ ·)
    else plainSegments (current ++ [c]) rest

def bracketSegments (literal : List Char) : List Char → Option (List (List Char))
  | [] => none
  | c :: rest =>
    if c = ']' then (plainSegments [] rest).map (literal :: ·)
    else bracketSegments (literal ++ [c]) rest

end

def splitKeyPath (path : String) : Except KeyPathFault (List String) :=
  let text := bareKeyPath path.toList
  if text.isEmpty then .error .empty
  else match plainSegments [] text with
    | none => .error (.unclosed (String.ofList text))
    | some [] => .error (.noSegments (String.ofList text))
    | some segments => .ok (segments.map String.ofList)

/-- The array index that a segment denotes: decimal digits, a plus sign in front or not, within the
range of machine words. -/
def index? (segment : String) : Option Nat :=
  let digits := match segment.toList with
    | '+' :: rest => rest
    | text => text
  let n := digits.foldl (fun n c => 10 * n + (c.toNat - 48)) 0
  if !digits.isEmpty && digits.all Char.isDigit && n < Nat.pow 2 64 then some n else none

def follow : List String → Value → Option Value
  | [], value => some value
  | segment :: rest, .table entries => (Table.get? segment entries).bind (follow rest)
  | segment :: rest, .array items =>
    (index? segment).bind fun index => items[index]?.bind (follow rest)
  | _ :: _, _ => none

inductive WrittenSegment where
  | plain (text : List Char)
  | bracketed (text : List Char)
  deriving DecidableEq, Repr

namespace WrittenSegment

def text : WrittenSegment → List Char
  | .plain text => text
  | .bracketed text => text

def write : WrittenSegment → List Char
  | .plain text => text
  | .bracketed text => '[' :: text ++ [']']

end WrittenSegment

def writtenPath : List (Nat × WrittenSegment) → Nat → List Char
  | [], after => List.replicate after '.'
  | (before, segment) :: rest, after =>
    List.replicate before '.' ++ segment.write ++ writtenPath rest after

end UtilityCss.Theme
