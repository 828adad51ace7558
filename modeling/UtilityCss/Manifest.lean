import UtilityCss.Candidate.Pool
import UtilityCss.Error
import UtilityCss.Theme.Resolution
import UtilityCss.Toml.Printer

set_option autoImplicit false

namespace UtilityCss

abbrev Generator := Theme → CandidatePool → Except BuildError String

namespace Generator

def dashed (key : String) : String :=
  String.ofList (key.toList.flatMap fun c =>
    if c.isUpper then ['-', c.toLower] else if c = '.' then ['_'] else [c])

def scalarText : Value → String
  | .string text => text
  | value => Toml.print value

def nestedName (name key : String) : String :=
  if key = Theme.leafKey then name else name ++ "-" ++ dashed key

mutual

def properties (name : String) : Value → List (String × String)
  | .table entries => entryProperties name entries
  | .array items => [(name, ", ".intercalate (items.map scalarText))]
  | .string text => [(name, text)]
  | .integer value => [(name, scalarText (.integer value))]
  | .float value => [(name, scalarText (.float value))]
  | .boolean value => [(name, scalarText (.boolean value))]
  | .datetime value => [(name, scalarText (.datetime value))]

def entryProperties (name : String) : List (String × Value) → List (String × String)
  | [] => []
  | (key, value) :: rest => properties (nestedName name key) value ++ entryProperties name rest

end

def isPlainInClass (c : Char) : Bool := c.isAlphanum || c = '-' || c = '_' || 128 ≤ c.toNat

def escapeChar (c : Char) : List Char := if isPlainInClass c then [c] else ['\\', c]

def classSelector (candidate : String) : String :=
  String.ofList (match candidate.toList with
    | [] => []
    | c :: rest =>
      (if c.isDigit then ['\\', '3', c, ' '] else escapeChar c) ++ rest.flatMap escapeChar)

def rule (candidate : String) : String :=
  "." ++ classSelector candidate ++ " \x7b --ws-candidate: 1; \x7d\n"

def themeProperties (theme : Theme) : List (String × String) :=
  theme.entries.flatMap fun (key, value) => properties (dashed key) value

def rootRule (properties : List (String × String)) : String :=
  if properties.isEmpty then ""
  else ":root \x7b\n" ++
    String.join (properties.map fun (name, value) => "  --" ++ name ++ ": " ++ value ++ ";\n") ++
    "\x7d\n"

def manifest : Generator := fun theme candidates =>
  .ok (rootRule (themeProperties theme) ++ String.join (candidates.items.map rule))

def refusing (candidate : String) (generator : Generator) : Generator := fun theme candidates =>
  if candidates.contains candidate then .error (.generation ("refused " ++ candidate))
  else generator theme candidates

end Generator

end UtilityCss
