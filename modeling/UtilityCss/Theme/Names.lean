import UtilityCss.Text.Cut
import UtilityCss.Value.Basic

set_option autoImplicit false

namespace UtilityCss.Theme

def leafKey : String := "DEFAULT"

def dashedNamespaces : List String :=
  ["font-weight", "inset-shadow", "drop-shadow", "text-shadow", "default-transition-duration",
   "default-transition-timing-function"]

def namespaceKeys : List (String × String) :=
  [("color", "colors"), ("font", "fontFamily"), ("font-weight", "fontWeight"), ("text", "fontSize"),
   ("tracking", "letterSpacing"), ("leading", "lineHeight"), ("breakpoint", "screens"),
   ("container", "containers"), ("radius", "borderRadius"), ("shadow", "boxShadow"),
   ("inset-shadow", "insetShadow"), ("drop-shadow", "dropShadow"), ("text-shadow", "textShadow"),
   ("aspect", "aspectRatio"), ("ease", "transitionTimingFunction"), ("animate", "animation"),
   ("perspective", "perspective"), ("blur", "blur"), ("spacing", "spacing")]

def afterNamespace? (space body : List Char) : Option (List Char) :=
  match space.isPrefixOf? body with
  | some [] => some []
  | some ('-' :: rest) => some rest
  | _ => none

def splitDashed? (body : List Char) : Option (String × List Char) :=
  dashedNamespaces.findSome? fun space =>
    (afterNamespace? space.toList body).map fun rest => (space, rest)

def splitPlain? (body : List Char) : Option (String × List Char) :=
  match Text.splitOnce '-' body with
  | none => some (String.ofList body, [])
  | some ([], _) => none
  | some (space, rest) => some (String.ofList space, rest)

def splitName? (name : String) : Option (String × String) :=
  match name.toList with
  | '-' :: '-' :: c :: rest =>
    ((splitDashed? (c :: rest)).orElse fun _ => splitPlain? (c :: rest)).map
      fun (space, rest) => (space, String.ofList rest)
  | _ => none

def namespaceOf? (name : String) : Option String := (splitName? name).map Prod.fst

def keyOf (space : String) : String :=
  ((namespaceKeys.find? fun entry => entry.1 = space).map Prod.snd).getD space

def namespaceFor (segment : String) : String :=
  ((namespaceKeys.find? fun entry => entry.2 = segment).map Prod.fst).getD segment

def isAliased (segment : String) : Bool := keyOf segment ≠ segment

def splitDoubleDash : List Char → List (List Char)
  | [] => [[]]
  | '-' :: '-' :: rest => [] :: splitDoubleDash rest
  | c :: rest =>
    match splitDoubleDash rest with
    | [] => [[c]]
    | piece :: pieces => (c :: piece) :: pieces

/-- The path of keys that the rest of a token's name gives: single dashes separate keys, and each
double dash starts a key that is kept whole. Empty keys count for nothing. -/
def tokenPath (rest : String) : List String :=
  let keys := match splitDoubleDash rest.toList with
    | [] => []
    | first :: whole => Text.split '-' first ++ whole
  match (keys.filter fun key => !key.isEmpty).map String.ofList with
  | [] => [leafKey]
  | path => path

def nestedEntries (key : String) (table : Table Value) : Table Value :=
  match Table.get? key table with
  | none => []
  | some (.table entries) => entries
  | some leaf => [(leafKey, leaf)]

def insertAt : List String → Value → Table Value → Table Value
  | [], _, table => table
  | [key], value, table =>
    match Table.get? key table with
    | some (.table entries) =>
      Table.insert key (.table (Table.insert leafKey value entries)) table
    | _ => Table.insert key value table
  | key :: rest, value, table =>
    Table.insert key (.table (insertAt rest value (nestedEntries key table))) table

end UtilityCss.Theme
