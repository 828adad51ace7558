import UtilityCss.Value.Basic

set_option autoImplicit false

namespace UtilityCss.Value

mutual

/-- The overlay wins wherever both are defined and not both tables. -/
def merge : Value → Value → Value
  | .table base, .table overlay => .table (mergeEntries base overlay)
  | .table _, overlay => overlay
  | .string _, overlay => overlay
  | .integer _, overlay => overlay
  | .float _, overlay => overlay
  | .boolean _, overlay => overlay
  | .datetime _, overlay => overlay
  | .array _, overlay => overlay

def mergeEntries : List (String × Value) → List (String × Value) → List (String × Value)
  | [], overlay => overlay
  | (key, value) :: rest, overlay =>
    let merged := match Table.get? key overlay with
      | none => value
      | some above => merge value above
    mergeEntries rest (Table.insert key merged overlay)

end

def extendWith (running : Option Value) (extension : Value) : Value :=
  match running with
  | none => extension
  | some base => merge base extension

def overlay? : Option Value → Option Value → Option Value
  | some base, some upper => some (merge base upper)
  | none, upper => upper
  | base, none => base

def valueAt : List String → Value → Option Value
  | [], value => some value
  | key :: keys, .table entries => (Table.get? key entries).bind (valueAt keys)
  | _ :: _, _ => none

@[simp] theorem valueAt_nil (value : Value) : valueAt [] value = some value := by
  cases value <;> rfl

@[simp] theorem valueAt_cons_table (key : String) (keys : List String)
    (entries : List (String × Value)) :
    valueAt (key :: keys) (.table entries) = (Table.get? key entries).bind (valueAt keys) := rfl

end UtilityCss.Value
