import UtilityCss.Config.Setting
import UtilityCss.Source.Pattern
import UtilityCss.Toml.Reader

set_option autoImplicit false

namespace UtilityCss.Config

def themeEntry : String := "theme"

def extendEntry : String := "extend"

def contentEntry : String := "content"

def presetsEntry : String := "presets"

/-- Relative paths in the settings are seen from `base`; `origin` is the file the layer was read
from. -/
structure Layer where
  config : Setting
  base : Path
  origin : Option Path

namespace Layer

def ofValue (value : Value) (base : Path) : Layer := ⟨Setting.ofValue value, base, none⟩

def unreadableDetails : String := "not a well-formed document"

def read (text : String) (location : String) (base : Path) : Except SettingsError Layer :=
  match Toml.read? text with
  | some entries => .ok (ofValue (.table entries) base)
  | none => .error (.unreadable location unreadableDetails)

def ofText (text : String) (base : Path) : Except SettingsError Layer := read text "string" base

/-- The `theme` section, if there is one. The settings, the section and its additions have to be
tables. -/
def theme (layer : Layer) (index : Nat) : Except SettingsError (Option (Table Setting)) :=
  let malformed details := Except.error (.malformedLayer index layer.base details)
  match layer.config with
  | .table settings =>
    match Table.get? themeEntry settings with
    | none => .ok none
    | some (.table theme) =>
      match Table.get? extendEntry theme with
      | none => .ok (some theme)
      | some (.table _) => .ok (some theme)
      | some other =>
        malformed ("\x60theme.extend\x60 must be a table, found " ++ other.typeName)
    | some other => malformed ("\x60theme\x60 must be a table, found " ++ other.typeName)
  | other => malformed ("expected a table, found " ++ other.typeName)

def texts : Option Setting → List String
  | some (.literal (.array items)) => items.filterMap Value.text?
  | _ => []

def sourcePattern (base : Path) (text : String) : SourcePattern :=
  match text.toList with
  | '!' :: pattern => ⟨String.ofList pattern, true, base⟩
  | pattern => ⟨String.ofList pattern, false, base⟩

def content (layer : Layer) : List SourcePattern :=
  let files := match layer.config.get? contentEntry with
    | some (.table entries) => texts (Table.get? "files" entries)
    | listed => texts listed
  files.map (sourcePattern layer.base)

def presets (layer : Layer) : List String := texts (layer.config.get? presetsEntry)

end Layer

abbrev Stack := List Layer

namespace Stack

def content (stack : Stack) : List SourcePattern := stack.flatMap Layer.content

def origins (stack : Stack) : List Path :=
  (stack.filterMap Layer.origin).foldl
    (fun seen path => if seen.any path.same then seen else seen ++ [path]) []

end Stack

end UtilityCss.Config
