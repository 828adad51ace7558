import UtilityCss.Error

set_option autoImplicit false

namespace UtilityCss

inductive Severity where
  | warning
  | error
  deriving DecidableEq, Repr

def Severity.name : Severity → String
  | .warning => "warning"
  | .error => "error"

structure Diagnostic where
  severity : Severity
  path : Option Path
  message : String
  deriving DecidableEq, Repr

namespace Diagnostic

def pathOf : BuildError → Option Path
  | .extraction path _ => some path
  | .watch path _ => some path
  | _ => none

def ofError (severity : Severity) (error : BuildError) : Diagnostic :=
  ⟨severity, pathOf error, error.message⟩

def warning (error : BuildError) : Diagnostic := ofError .warning error

def text (d : Diagnostic) : String := d.severity.name ++ ": " ++ d.message

end Diagnostic

end UtilityCss
