import UtilityCss.Decimal.Binary64
import UtilityCss.Value.Datetime
import UtilityCss.Value.Table

set_option autoImplicit false

namespace UtilityCss

inductive Value where
  | string (text : String)
  | integer (value : Int)
  | float (value : Binary64)
  | boolean (value : Bool)
  | datetime (value : Datetime)
  | array (items : List Value)
  | table (entries : List (String × Value))

namespace Value

def typeName : Value → String
  | .string _ => "string"
  | .integer _ => "integer"
  | .float _ => "float"
  | .boolean _ => "boolean"
  | .datetime _ => "datetime"
  | .array _ => "array"
  | .table _ => "table"

def isTable : Value → Bool
  | .table _ => true
  | _ => false

def text? : Value → Option String
  | .string text => some text
  | _ => none

mutual

def Ordered : Value → Prop
  | .array items => OrderedItems items
  | .table entries => Table.Ordered entries ∧ OrderedEntries entries
  | _ => True

def OrderedItems : List Value → Prop
  | [] => True
  | item :: items => Ordered item ∧ OrderedItems items

def OrderedEntries : List (String × Value) → Prop
  | [] => True
  | (_, value) :: entries => Ordered value ∧ OrderedEntries entries

end

end Value

end UtilityCss
