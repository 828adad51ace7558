import UtilityCss.Text.Cut

set_option autoImplicit false

namespace UtilityCss

namespace Glob

inductive Token where
  | literal (c : Char)
  | anyOne
  | star
  | leading
  | trailing
  | between
  | oneOf (negated : Bool) (ranges : List (Char × Char))
  | alternatives (branches : List (List Token))

inductive Fault where
  | unclosedClass
  | invalidRange (first last : Char)
  | unopenedAlternatives
  | unclosedAlternatives
  | danglingEscape
  deriving DecidableEq, Repr

def Fault.message : Fault → String
  | .unclosedClass => "unclosed character class; missing ']'"
  | .invalidRange first last =>
    "invalid range; '" ++ first.toString ++ "' > '" ++ last.toString ++ "'"
  | .unopenedAlternatives =>
    "unopened alternate group; missing '\x7b' (maybe escape '\x7d' with '[\x7d]'?)"
  | .unclosedAlternatives =>
    "unclosed alternate group; missing '\x7d' (maybe escape '\x7b' with '[\x7b]'?)"
  | .danglingEscape => "dangling '\\'"

def Fault.describe (fault : Fault) (pattern : String) : String :=
  "error parsing glob '" ++ pattern ++ "': " ++ fault.message

/-- The characters of a class up to its closing bracket, behind the opening one and the negation.
The first character is never the closing bracket; `open_` says that a range waits for its end. -/
def classRanges (first open_ : Bool) (ranges : List (Char × Char)) :
    List Char → Except Fault (List (Char × Char) × List Char)
  | [] => .error .unclosedClass
  | c :: rest =>
    if c = ']' ∧ !first then
      .ok ((if open_ then ('-', '-') :: ranges else ranges).reverse, rest)
    else if c = '-' ∧ !first ∧ !open_ then classRanges false true ranges rest
    else if open_ then
      match ranges with
      | (low, _) :: earlier =>
        if c < low then .error (.invalidRange low c)
        else classRanges false false ((low, c) :: earlier) rest
      | [] => .error .unclosedClass
    else classRanges false false ((c, c) :: ranges) rest

def class_ (text : List Char) : Except Fault (Token × List Char) :=
  let (negated, body) := match text with
    | '!' :: rest => (true, rest)
    | '^' :: rest => (true, rest)
    | rest => (false, rest)
  (classRanges true false [] body).map fun (ranges, rest) => (.oneOf negated ranges, rest)

/-- What has been read of a pattern. Each open brace keeps the number of branches in front of it;
the branches are in reverse order, the tokens of each too, and the first one is being read. -/
structure Reading where
  marks : List Nat
  branches : List (List Token)

namespace Reading

def start : Reading := ⟨[], [[]]⟩

def push (r : Reading) (token : Token) : Except Fault Reading :=
  match r.branches with
  | [] => .error .unopenedAlternatives
  | branch :: branches => .ok { r with branches := (token :: branch) :: branches }

def pushAll (r : Reading) (tokens : List Token) : Except Fault Reading := tokens.foldlM push r

def openBrace (r : Reading) : Reading := ⟨r.branches.length :: r.marks, [] :: r.branches⟩

def nextBranch (r : Reading) : Reading := { r with branches := [] :: r.branches }

def closeBrace (r : Reading) : Except Fault Reading :=
  match r.marks with
  | [] => .error .unopenedAlternatives
  | mark :: marks =>
    let count := r.branches.length - mark
    let inside := (r.branches.take count).reverse.map List.reverse
    push ⟨marks, r.branches.drop count⟩ (.alternatives inside)

def atStart (r : Reading) : Bool :=
  match r.branches with
  | branch :: _ => branch.isEmpty
  | [] => true

/-- Replaces the slash that was read last by a token for any directories, unless such a token took
that slash along already. -/
def replaceSlash (r : Reading) (token : Token) : Reading :=
  match r.branches with
  | (.leading :: _) :: _ => r
  | (.trailing :: _) :: _ => r
  | (_ :: branch) :: branches => { r with branches := (token :: branch) :: branches }
  | _ => r

def twoStars (r : Reading) (previous : Option Char) (rest : List Char) :
    Except Fault (Reading × List Char) :=
  let asStars := (r.pushAll [.star, .star]).map fun r => (r, rest)
  if r.branches.isEmpty then .error .unopenedAlternatives
  else if r.atStart then
    match rest with
    | [] => (r.push .leading).map fun r => (r, [])
    | '/' :: rest => (r.push .leading).map fun r => (r, rest)
    | _ => asStars
  else if previous ≠ some '/' ∧
      (r.branches.length ≤ 1 ∨ (previous ≠ some ',' ∧ previous ≠ some '\x7b')) then asStars
  else match rest with
    | [] => .ok (r.replaceSlash .trailing, [])
    | '/' :: rest => .ok (r.replaceSlash .between, rest)
    | c :: rest =>
      if (c = ',' ∨ c = '\x7d') ∧ 2 ≤ r.branches.length then
        .ok (r.replaceSlash .trailing, c :: rest)
      else asStars

end Reading

/-- Reads the tokens of a text; `previous` is the character in front of it. With `lenient`, a
bracket that is not closed stands for itself. Every step takes a character, so a number of steps
greater than the length is never exhausted. -/
def readTokens (lenient : Bool) :
    Nat → Option Char → List Char → Reading → Except Fault Reading
  | 0, _, _, r => .ok r
  | _, _, [], r => .ok r
  | steps + 1, previous, c :: rest, r =>
    if c = '?' then do readTokens lenient steps (some c) rest (← r.push .anyOne)
    else if c = '*' then
      match rest with
      | '*' :: rest => do
        let (r, after) ← r.twoStars previous rest
        -- A slash that was taken along is now the character in front.
        let previous := if after.length < rest.length then '/' else '*'
        readTokens lenient steps (some previous) after r
      | rest => do readTokens lenient steps (some c) rest (← r.push .star)
    else if c = '[' then
      match class_ rest with
      | .ok (token, rest) => do readTokens lenient steps (some ']') rest (← r.push token)
      | .error .unclosedClass =>
        if lenient then do readTokens lenient steps (some c) rest (← r.push (.literal c))
        else .error .unclosedClass
      | .error fault => .error fault
    else if c = '\x7b' then readTokens lenient steps (some c) rest r.openBrace
    else if c = '\x7d' then do readTokens lenient steps (some c) rest (← r.closeBrace)
    else if c = ',' ∧ !r.marks.isEmpty then readTokens lenient steps (some c) rest r.nextBranch
    else if c = '\\' then
      match rest with
      | [] => .error .danglingEscape
      | d :: rest => do readTokens lenient steps (some d) rest (← r.push (.literal d))
    else do readTokens lenient steps (some c) rest (← r.push (.literal c))

end Glob

structure Glob where
  tokens : List Glob.Token

namespace Glob

def read (lenient : Bool) (pattern : String) : Except Fault Glob :=
  let text := pattern.toList
  match readTokens lenient (text.length + 1) none text Reading.start with
  | .error fault => .error fault
  | .ok ⟨_, [branch]⟩ => .ok ⟨branch.reverse⟩
  | .ok ⟨_, []⟩ => .error .unopenedAlternatives
  | .ok ⟨_, _ :: _ :: _⟩ => .error .unclosedAlternatives

end Glob

end UtilityCss
