import UtilityCss.Stylesheet.Comments
import UtilityCss.Text.Blank
import UtilityCss.Text.Cut

set_option autoImplicit false

namespace UtilityCss.Stylesheet

def engineName : List Char := ['w', 'i', 'n', 'd', 's', 'm', 'i', 't', 'h']

def isPartChar (c : Char) : Bool := c.isAlphanum || c = '_' || c = '.' || c = '-' || c = '/'

def namesEngine : List Char → Bool
  | [] => false
  | c :: text =>
    match isQuoteMark c, engineName.isPrefixOf? text with
    | true, some ('/' :: part) => ((part.dropWhile isPartChar).head?.map isQuoteMark).getD false
    | true, some (mark :: _) => isQuoteMark mark
    | _, _ => false

def urlStart : List Char := ['u', 'r', 'l', '(']

def importMark : List Char := ['@', 'i', 'm', 'p', 'o', 'r', 't']

def startsEngineImport (text : List Char) : Bool :=
  match importMark.isPrefixOf? (Text.trimStart text) with
  | some (c :: rest) =>
    let target := Text.trimStart rest
    let target := match urlStart.isPrefixOf? target with
      | some inner => Text.trimStart inner
      | none => target
    isBlank c && namesEngine target
  | _ => false

def engineImportWithin (begins : Bool) : List Char → Bool
  | [] => false
  | c :: rest =>
    (begins && startsEngineImport (c :: rest)) || engineImportWithin (c = '\n' || c = ';') rest

def hasEngineImport (css : List Char) : Bool := engineImportWithin true (uncommented css)

/-- The statements of a line, each with the semicolon that ends it. Semicolons in strings, braces
and parentheses end none. `quoted` is the quote of an open string, and whether a backslash precedes.
-/
def splitStatements (depth : Nat) (quoted : Option (Char × Bool)) : List Char → List (List Char)
  | [] => []
  | c :: rest =>
    let extend (pieces : List (List Char)) : List (List Char) :=
      match pieces with
      | [] => [[c]]
      | piece :: pieces => (c :: piece) :: pieces
    match quoted with
    | some (quote, escaped) =>
      if escaped then extend (splitStatements depth (some (quote, false)) rest)
      else if c = '\\' then extend (splitStatements depth (some (quote, true)) rest)
      else if c = quote then extend (splitStatements depth none rest)
      else extend (splitStatements depth (some (quote, false)) rest)
    | none =>
      if isQuoteMark c then extend (splitStatements depth (some (c, false)) rest)
      else if c = '{' ∨ c = '(' then extend (splitStatements (depth + 1) none rest)
      else if c = '}' ∨ c = ')' then extend (splitStatements (depth - 1) none rest)
      else if c = ';' ∧ depth = 0 then [c] :: splitStatements depth none rest
      else extend (splitStatements depth none rest)

def statementsOf (line : List Char) : List (List Char) := splitStatements 0 none line

inductive Directive where
  | engineImport
  | importFile (target : String) (statement : String)
  | source (pattern : String) (negated : Bool)
  | config (file : String)
  deriving DecidableEq, Repr

def unquote? (text : List Char) : Option (List Char) :=
  match Text.trim text with
  | c :: d :: rest =>
    if isQuoteMark c && (d :: rest).getLast? = some c then some (d :: rest).dropLast else none
  | _ => none

def importedName? (text : List Char) : Option (List Char) :=
  let text := Text.trimStart text
  match urlStart.isPrefixOf? text, text with
  | some inner, _ =>
    (Text.splitOnce ')' inner).map fun (argument, _) =>
      (unquote? argument).getD (Text.trim argument)
  | none, c :: rest =>
    if isQuoteMark c then (Text.splitOnce c rest).map Prod.fst else none
  | none, [] => none

def dropSemicolons (text : List Char) : List Char := Text.dropWhileEnd (· = ';') text

def sourceMark : List Char := ['@', 's', 'o', 'u', 'r', 'c', 'e']

def configMark : List Char := ['@', 'c', 'o', 'n', 'f', 'i', 'g']

def notMark : List Char := ['n', 'o', 't', ' ']

def readSource? (text : List Char) : Option Directive :=
  let text := Text.trim (dropSemicolons (Text.trim text))
  let (text, negated) := match notMark.isPrefixOf? text with
    | some rest => (Text.trim rest, true)
    | none => (text, false)
  (unquote? text).map fun pattern => .source (String.ofList pattern) negated

def directive? (statement : List Char) : Option Directive :=
  let text := Text.trim statement
  match importMark.isPrefixOf? text, sourceMark.isPrefixOf? text, configMark.isPrefixOf? text with
  | some rest, _, _ =>
    if hasEngineImport text then some .engineImport
    else (importedName? rest).map fun target =>
      .importFile (String.ofList target) (String.ofList text)
  | none, some rest, _ => readSource? rest
  | none, none, some rest =>
    (unquote? (dropSemicolons (Text.trim rest))).map fun file => .config (String.ofList file)
  | none, none, none => none

def namesFile (target : String) : Bool :=
  let text := target.toList
  !(text.isEmpty || (Text.splitAtText [':', '/', '/'] text).isSome || ['/', '/'].isPrefixOf text ||
    ['d', 'a', 't', 'a', ':'].isPrefixOf text)

end UtilityCss.Stylesheet
