import UtilityCss.Value.Basic

set_option autoImplicit false

namespace UtilityCss.Toml

/-- A table is opened by its own header, implied by the header of a table below it, or implied by a
dotted key. -/
inductive TableOrigin where
  | header
  | implied
  | dotted
  deriving DecidableEq, Repr

/-- Values are closed; tables and lists of tables can still grow. -/
inductive Node where
  | leaf (value : Value)
  | table (origin : TableOrigin) (entries : List (String × Node))
  | tableList (tables : List (List (String × Node)))

namespace Node

mutual

def toValue : Node → Value
  | .leaf value => value
  | .table _ entries => .table (toEntries entries)
  | .tableList tables => .array (toTables tables)

def toEntries : List (String × Node) → List (String × Value)
  | [] => []
  | (key, node) :: rest => (key, toValue node) :: toEntries rest

def toTables : List (List (String × Node)) → List Value
  | [] => []
  | entries :: rest => .table (toEntries entries) :: toTables rest

end

/-- Whether a dotted key may lead through a table of this origin: never through one with a header of
its own, and the table that receives the value must come from a dotted key. -/
def admits (origin : TableOrigin) (receives : Bool) : Bool :=
  match origin with
  | .header => false
  | .implied => !receives
  | .dotted => true

/-- Sets a value at a dotted key. Nothing is set twice. -/
def put : List String → Value → List (String × Node) → Option (List (String × Node))
  | [], _, _ => none
  | [key], value, entries =>
    match Table.get? key entries with
    | none => some (Table.insert key (.leaf value) entries)
    | some _ => none
  | key :: rest, value, entries =>
    match Table.get? key entries with
    | none => (put rest value []).map fun inner => Table.insert key (.table .dotted inner) entries
    | some (.table origin inner) =>
      if admits origin (rest.length = 1) then
        (put rest value inner).map fun inner => Table.insert key (.table origin inner) entries
      else none
    | some (.tableList tables) =>
      match tables.getLast? with
      | some last =>
        -- A list of tables grows by its headers alone.
        if rest.length = 1 then none
        else (put rest value last).map fun inner =>
          Table.insert key (.tableList (tables.dropLast ++ [inner])) entries
      | none => none
    | some (.leaf _) => none

/-- Changes the node at the path of a header, through the last table of each list on the way. -/
def atHeader (change : Option Node → Option Node) :
    List String → List (String × Node) → Option (List (String × Node))
  | [], _ => none
  | [key], entries =>
    (change (Table.get? key entries)).map fun node => Table.insert key node entries
  | key :: rest, entries =>
    match Table.get? key entries with
    | none =>
      (atHeader change rest []).map fun inner => Table.insert key (.table .implied inner) entries
    | some (.table origin inner) =>
      (atHeader change rest inner).map fun inner => Table.insert key (.table origin inner) entries
    | some (.tableList tables) =>
      match tables.getLast? with
      | some last => (atHeader change rest last).map fun inner =>
          Table.insert key (.tableList (tables.dropLast ++ [inner])) entries
      | none => none
    | some (.leaf _) => none

def openTable (fill : List (String × Node) → Option (List (String × Node))) :
    Option Node → Option Node
  | none => (fill []).map (.table .header)
  | some (.table .implied entries) => (fill entries).map (.table .header)
  | some _ => none

def appendTable (fill : List (String × Node) → Option (List (String × Node))) :
    Option Node → Option Node
  | none => (fill []).map fun entries => .tableList [entries]
  | some (.tableList tables) => (fill []).map fun entries => .tableList (tables ++ [entries])
  | some _ => none

def putAll : List (List String × Value) → List (String × Node) → Option (List (String × Node))
  | [], entries => some entries
  | (key, value) :: rest, entries => (put key value entries).bind (putAll rest)

end Node

end UtilityCss.Toml
