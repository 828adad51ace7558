import UtilityCss.Glob.Matching
import UtilityCss.Path.Basic
import UtilityCss.Text.Blank
import UtilityCss.Text.Utf8

/-!
Ignore files. Each line is a rule: a pattern of paths below the directory of the file, negated with
`!`, and for directories alone if it ends in a slash. The last rule that matches decides.
-/

set_option autoImplicit false

namespace UtilityCss.Ignore

structure Rule where
  glob : Glob
  negated : Bool
  onlyDirectories : Bool

/-- The rules of a file, for paths below a directory, in order. -/
structure RuleSet where
  directory : String
  rules : List Rule

inductive Verdict where
  | undecided
  | ignored
  | included
  deriving DecidableEq, Repr

def Verdict.orElse (first second : Verdict) : Verdict :=
  match first with
  | .undecided => second
  | _ => first

def trimLine (line : List Char) : List Char :=
  if (Text.dropEnd? ['\\', ' '] line).isSome then line else Text.trimEnd line

/-- The signs in front of a pattern: negated, bound to the directory, and the pattern. A backslash
in front of `!` or `#` takes their meaning away. -/
def signs (line : List Char) : Bool × Bool × List Char :=
  match line with
  | '\\' :: '!' :: rest => (false, false, '!' :: rest)
  | '\\' :: '#' :: rest => (false, false, '#' :: rest)
  | '!' :: '/' :: rest => (true, true, rest)
  | '!' :: rest => (true, false, rest)
  | '/' :: rest => (false, true, rest)
  | _ => (false, false, line)

def directoryMark (pattern : List Char) : Bool × List Char :=
  match Text.dropEnd? ['/'] pattern with
  | none => (false, pattern)
  | some pattern => (true, (Text.dropEnd? ['\\'] pattern).getD pattern)

/-- A pattern without a slash holds at any depth, and one that ends in `/**` holds for what is in a
directory and not for the directory. -/
def fullPattern (bound : Bool) (pattern : List Char) : List Char :=
  let pattern :=
    if bound || pattern.contains '/' || pattern = ['*', '*'] then pattern
    else '*' :: '*' :: '/' :: pattern
  if (Text.dropEnd? ['/', '*', '*'] pattern).isSome then pattern ++ ['/', '*'] else pattern

def rule? (line : List Char) : Option Rule :=
  if line.head? = some '#' ∨ (trimLine line).isEmpty then none
  else
    let (negated, bound, pattern) := signs (trimLine line)
    let (onlyDirectories, pattern) := directoryMark pattern
    match Glob.read true (String.ofList (fullPattern bound pattern)) with
    | .ok glob => some ⟨glob, negated, onlyDirectories⟩
    | .error _ => none

def textLines (content : ByteArray) : List (List Char) :=
  let text := match Utf8.decodeFrom 0 content.data.toList with
    | .ok text => text
    | .error fault =>
      match Utf8.decodeFrom 0 (content.data.toList.take fault.valid) with
      | .ok text => text.reverse.dropWhile (· ≠ '\n') |>.reverse
      | .error _ => []
  match Text.lines text with
  | first :: rest => first.dropWhile (· = '\uFEFF') :: rest
  | [] => []

namespace RuleSet

def empty : RuleSet := ⟨"", []⟩

def dropDot (path : List Char) : List Char := (['.', '/'].isPrefixOf? path).getD path

def ofFile (directory : Path) (content : ByteArray) : RuleSet :=
  ⟨String.ofList (dropDot directory.spelling.toList), (textLines content).filterMap rule?⟩

def relative (set : RuleSet) (path : String) : String :=
  let text := dropDot path.toList
  if set.directory = "." ∨ !text.contains '/' then String.ofList text
  else match set.directory.toList.isPrefixOf? text with
    | some rest => String.ofList ((['/'].isPrefixOf? rest).getD rest)
    | none => String.ofList text

def decide (set : RuleSet) (relative : String) (isDirectory : Bool) : Verdict :=
  match set.rules.reverse.find? fun rule =>
      (!rule.onlyDirectories || isDirectory) && rule.glob.isMatch relative with
  | some rule => if rule.negated then .included else .ignored
  | none => .undecided

def verdict (set : RuleSet) (path : String) (isDirectory : Bool) : Verdict :=
  set.decide (set.relative path) isDirectory

def above (pieces : List (List Char)) : List (List (List Char)) :=
  match pieces with
  | [] => []
  | piece :: rest => (above rest).map (piece :: ·) ++ [[]]

def parents (relative : String) : List String :=
  if relative = "" then []
  else
    (above (Text.split '/' relative.toList)).map fun pieces =>
      String.ofList (Text.join ['/'] pieces)

/-- The verdict on a file, or else on the nearest directory above it that has one. Rules refuse a
path that still starts at the root when it is seen from their directory. -/
def verdictAbove? (set : RuleSet) (path : String) : Option Verdict :=
  let relative := set.relative path
  if set.rules.isEmpty then some .undecided
  else if (Path.mk relative).isAbsolute then none
  else some ((parents relative).foldl
    (fun verdict parent => verdict.orElse (set.decide parent true)) (set.decide relative false))

end RuleSet

end UtilityCss.Ignore
