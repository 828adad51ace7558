import UtilityCss.Text.Blank
import UtilityCss.Theme.Names

set_option autoImplicit false

namespace UtilityCss.Theme

structure Tokens where
  entries : List (String × String)
  deriving DecidableEq, Repr

namespace Tokens

def empty : Tokens := ⟨[]⟩

def set (name value : String) : List (String × String) → List (String × String)
  | [] => [(name, value)]
  | (other, old) :: rest =>
    if other = name then (name, value) :: rest else (other, old) :: set name value rest

def eraseNamespace (tokens : Tokens) (space : String) : Tokens :=
  ⟨tokens.entries.filter fun entry => namespaceOf? entry.1 ≠ some space⟩

/-- What a declaration resets, if it is a reset: everything, or one namespace. -/
inductive Reset where
  | all
  | space (name : String)
  deriving DecidableEq, Repr

def starredNamespace? (name : List Char) : Option (List Char) :=
  (Text.dropEnd? ['-', '*'] name).bind fun body => ['-', '-'].isPrefixOf? body

def reset? (name value : String) : Option Reset :=
  if trimText value ≠ "initial" then none
  else if name = "--*" then some .all
  else (starredNamespace? name.toList).map fun space => .space (String.ofList space)

def add (tokens : Tokens) (name value : String) : Tokens :=
  match reset? name value with
  | some .all => empty
  | some (.space space) => tokens.eraseNamespace space
  | none => ⟨set name value tokens.entries⟩

def ofList (declarations : List (String × String)) : Tokens :=
  declarations.foldl (fun tokens (name, value) => tokens.add name value) empty

def get? (tokens : Tokens) (name : String) : Option String :=
  (tokens.entries.find? fun entry => entry.1 = name).map Prod.snd

def size (tokens : Tokens) : Nat := tokens.entries.length

def distinct (items : List String) : List String :=
  items.foldl (fun seen item => if item ∈ seen then seen else seen ++ [item]) []

def namespaces (tokens : Tokens) : List String :=
  distinct (tokens.entries.filterMap fun entry => namespaceOf? entry.1)

def inNamespace (tokens : Tokens) (space : String) : List (String × String) :=
  tokens.entries.filterMap fun (name, value) =>
    match splitName? name with
    | some (found, rest) => if found = space then some (rest, value) else none
    | none => none

def namespaceTable? (tokens : Tokens) (space : String) : Option (Table Value) :=
  match tokens.inNamespace space with
  | [] => none
  | found => some (found.foldl (fun table (rest, value) =>
      insertAt (tokenPath rest) (.string value) table) [])

end Tokens

end UtilityCss.Theme
