set_option autoImplicit false

namespace UtilityCss

abbrev Table (α : Type) := List (String × α)

namespace Table

variable {α : Type}

def get? (key : String) : Table α → Option α
  | [] => none
  | (other, value) :: rest => if key = other then some value else get? key rest

def insert (key : String) (value : α) : Table α → Table α
  | [] => [(key, value)]
  | (other, old) :: rest =>
    if key = other then (key, value) :: rest
    else if key < other then (key, value) :: (other, old) :: rest
    else (other, old) :: insert key value rest

@[simp] theorem get?_insert_self (key : String) (value : α) (table : Table α) :
    get? key (insert key value table) = some value := by
  induction table with
  | nil => simp [insert, get?]
  | cons entry rest ih =>
    obtain ⟨other, old⟩ := entry
    by_cases same : key = other
    · simp [insert, get?, same]
    · by_cases less : key < other
      · simp [insert, get?, same, less]
      · simp [insert, get?, same, less, ih]

theorem get?_insert_of_ne {key other : String} (value : α) (table : Table α)
    (distinct : other ≠ key) : get? other (insert key value table) = get? other table := by
  induction table with
  | nil => simp [insert, get?, distinct]
  | cons entry rest ih =>
    obtain ⟨first, old⟩ := entry
    by_cases same : key = first
    · subst same; simp [insert, get?, distinct]
    · by_cases less : key < first
      · simp [insert, get?, same, less, distinct]
      · simp [insert, get?, same, less, ih]

def keys (table : Table α) : List String := table.map Prod.fst

def contains (key : String) (table : Table α) : Bool := (get? key table).isSome

def ofList (entries : List (String × α)) : Table α :=
  entries.foldl (fun table (key, value) => table.insert key value) []

def Ordered (table : Table α) : Prop := table.Pairwise fun first second => first.1 < second.1

instance (table : Table α) : Decidable (Ordered table) :=
  inferInstanceAs (Decidable (List.Pairwise _ table))

end Table

end UtilityCss
