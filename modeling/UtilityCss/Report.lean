import UtilityCss.Diagnostic

set_option autoImplicit false

namespace UtilityCss.Report

def reset : String := "\x1b[0m"

def bold : String := "\x1b[1m"

def dim : String := "\x1b[2m"

def red : String := "\x1b[31m"

def yellow : String := "\x1b[33m"

def styledError (text : String) : String := bold ++ red ++ text ++ reset

def styledWarning (text : String) : String := bold ++ yellow ++ text ++ reset

def styledDetail (text : String) : String := dim ++ text ++ reset

def severityLabel : Severity → String
  | .warning => styledWarning "warning"
  | .error => styledError "error"

def styledDiagnostic (d : Diagnostic) : String :=
  let first := severityLabel d.severity ++ ": " ++ d.message
  match d.path with
  | some path => first ++ "\n  " ++ styledDetail path.spelling
  | none => first

def hexDigit (n : Nat) : Char := Nat.digitChar (n % 16)

def jsonChar (c : Char) : List Char :=
  if c = '"' then ['\\', '"']
  else if c = '\\' then ['\\', '\\']
  else if c = '\x08' then ['\\', 'b']
  else if c = '\x0C' then ['\\', 'f']
  else if c = '\n' then ['\\', 'n']
  else if c = '\r' then ['\\', 'r']
  else if c = '\t' then ['\\', 't']
  else if c.toNat < 0x20 then ['\\', 'u', '0', '0', hexDigit (c.toNat / 16), hexDigit c.toNat]
  else [c]

def jsonString (text : String) : String :=
  String.ofList ('"' :: text.toList.flatMap jsonChar ++ ['"'])

def candidatesJson (files : Nat) (candidates : List String) : String :=
  let listed :=
    if candidates.isEmpty then "[]"
    else "[\n    " ++ ",\n    ".intercalate (candidates.map jsonString) ++ "\n  ]"
  "\x7b\n  \"files\": " ++ toString files ++ ",\n  \"candidates\": " ++ listed ++ "\n\x7d"

def candidatesText (files : Nat) (candidates : List String) (json : Bool) : String :=
  if json then candidatesJson files candidates else "\n".intercalate candidates

end UtilityCss.Report
