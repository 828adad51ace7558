import UtilityCss.Config.Query
import UtilityCss.Text.Blank
import UtilityCss.Text.Cut

set_option autoImplicit false

namespace UtilityCss.Config

inductive Setting where
  | literal (value : Value)
  | table (entries : List (String × Setting))
  | deferred (deferred : Deferred)

namespace Setting

def noSettings : Setting := .table []

def isReferenceChar (c : Char) : Bool := c.isAlphanum || c = '_' || c = '.' || c = '-'

def dropQuote : List Char → List Char
  | '\'' :: rest => rest
  | '"' :: rest => rest
  | text => text

/-- The path of a string `theme(path)`. Blanks may stand around the call and around its argument,
and a quote on either side of the path. -/
def referencePath? (text : String) : Option String :=
  match ['t', 'h', 'e', 'm', 'e', '('].isPrefixOf? (Text.trimStart text.toList) with
  | none => none
  | some rest =>
    let argument := dropQuote (Text.trimStart rest)
    let path := argument.takeWhile isReferenceChar
    match Text.trimStart (dropQuote (argument.dropWhile isReferenceChar)) with
    | ')' :: rest =>
      if !path.isEmpty && (Text.trimStart rest).isEmpty then some (String.ofList path) else none
    | _ => none

mutual

/-- The setting that a value denotes. Strings inside arrays are always literal. -/
def ofValue : Value → Setting
  | .table entries => .table (ofEntries entries)
  | .string text =>
    match referencePath? text with
    | some path => .deferred (.reference path)
    | none => .literal (.string text)
  | .integer value => .literal (.integer value)
  | .float value => .literal (.float value)
  | .boolean value => .literal (.boolean value)
  | .datetime value => .literal (.datetime value)
  | .array items => .literal (.array items)

def ofEntries : List (String × Value) → List (String × Setting)
  | [] => []
  | (key, value) :: rest => (key, ofValue value) :: ofEntries rest

end

def ofText (text : String) : Setting := .literal (.string text)

def entries? : Setting → Option (Table Setting)
  | .table entries => some entries
  | _ => none

def get? (key : String) (setting : Setting) : Option Setting :=
  setting.entries?.bind (Table.get? key)

def typeName : Setting → String
  | .literal value => value.typeName
  | .table _ => "table"
  | .deferred _ => "deferred function"

inductive PathFault where
  | empty
  | passesThrough (typeName : String) (walked : List String)
  | endsIn (typeName : String) (walked : List String)
  deriving DecidableEq, Repr

def PathFault.error : PathFault → SettingsError
  | .empty => .invalidPath "Empty path"
  | .passesThrough typeName walked => .invalidPath
      ("Cannot navigate into " ++ typeName ++ " at path '" ++ ".".intercalate walked ++ "'")
  | .endsIn typeName walked => .invalidPath
      ("Cannot insert into " ++ typeName ++ " at path '" ++ ".".intercalate walked ++ "'")

def pathKeys (path : String) : List String :=
  ((Text.split '.' path.toList).filter fun key => !key.isEmpty).map String.ofList

def putAt (walked : List String) : List String → Setting → Setting → Except PathFault Setting
  | [], _, _ => .error .empty
  | [key], value, .table entries => .ok (.table (Table.insert key value entries))
  | [_], _, setting => .error (.endsIn setting.typeName walked)
  | key :: rest, value, .table entries =>
    (putAt (walked ++ [key]) rest value ((Table.get? key entries).getD noSettings)).map
      fun inner => .table (Table.insert key inner entries)
  | _ :: _, _, setting => .error (.passesThrough setting.typeName walked)

def set (setting : Setting) (path : String) (value : Setting) : Except PathFault Setting :=
  putAt [] (pathKeys path) value setting

def settingAt : List String → Setting → Option Setting
  | [], setting => some setting
  | key :: rest, setting => (setting.get? key).bind (settingAt rest)

end Setting

end UtilityCss.Config
