import UtilityCss.Proofs.Value.Merge

set_option autoImplicit false

namespace UtilityCss.Value

mutual

theorem table_induction {motive : Value → Prop}
    (leaf : ∀ value : Value, value.isTable = false → motive value)
    (table : ∀ entries, (∀ entry ∈ entries, motive entry.2) → motive (.table entries)) :
    ∀ value, motive value
  | .string _ => leaf _ rfl
  | .integer _ => leaf _ rfl
  | .float _ => leaf _ rfl
  | .boolean _ => leaf _ rfl
  | .datetime _ => leaf _ rfl
  | .array _ => leaf _ rfl
  | .table entries => table entries (entries_induction leaf table entries)

theorem entries_induction {motive : Value → Prop}
    (leaf : ∀ value : Value, value.isTable = false → motive value)
    (table : ∀ entries, (∀ entry ∈ entries, motive entry.2) → motive (.table entries)) :
    ∀ entries : List (String × Value), ∀ entry ∈ entries, motive entry.2
  | [] => by simp
  | (_, value) :: rest =>
    List.forall_mem_cons.2
      ⟨table_induction leaf table value, entries_induction leaf table rest⟩

end

def top : Value → Value
  | .table _ => .table []
  | leaf => leaf

variable {first second value : Value} {key : String} {path : List String}

theorem top_leaf (leaf : value.isTable = false) : value.top = value := by
  cases value with
  | table entries => cases leaf
  | _ => rfl

theorem isTable_top (value : Value) : value.top.isTable = value.isTable := by
  cases value <;> rfl

theorem valueAt_cons_leaf (leaf : value.isTable = false) : valueAt (key :: path) value = none := by
  cases value with
  | table entries => cases leaf
  | _ => rfl

theorem valueAt_single (key : String) (entries : Table Value) :
    valueAt [key] (.table entries) = Table.get? key entries := by
  rw [valueAt_cons_table]
  cases Table.get? key entries <;> simp

theorem exists_of_isTable (table : value.isTable = true) : ∃ entries, value = .table entries := by
  cases value with
  | table entries => exact ⟨entries, rfl⟩
  | _ => cases table

theorem ext_of_tops (ordered : first.Ordered) (also : second.Ordered)
    (same : ∀ path, (valueAt path first).map top = (valueAt path second).map top) :
    first = second := by
  induction first using table_induction generalizing second with
  | leaf first leaf =>
    have atTop : first.top = second.top := by simpa using same []
    have isLeaf : second.isTable = false := by rw [← isTable_top, ← atTop, isTable_top, leaf]
    rwa [top_leaf leaf, top_leaf isLeaf] at atTop
  | table entries ih =>
    have atTop : (Value.table entries).top = second.top := by simpa using same []
    have isTable : second.isTable = true := by
      rw [← isTable_top, ← atTop, isTable_top]
      rfl
    obtain ⟨others, rfl⟩ := exists_of_isTable isTable
    refine congrArg Value.table (Table.Ordered.ext ordered.1 also.1 fun key => ?_)
    have here (path : List String) : ((Table.get? key entries).bind (valueAt path)).map top =
        ((Table.get? key others).bind (valueAt path)).map top := same (key :: path)
    rcases found : Table.get? key entries with _ | inner <;>
      rcases other : Table.get? key others with _ | value <;> simp only [found, other] at here
    · rfl
    · simpa using here []
    · simpa using here []
    · have member := Table.mem_of_get? found
      have ordered := orderedEntries_iff.1 ordered.2 _ member
      have also := orderedEntries_iff.1 also.2 _ (Table.mem_of_get? other)
      exact congrArg some (ih _ member ordered also here)

theorem map_top_congr {found other : Option Value}
    (tables : found.any isTable = other.any isTable)
    (leaves : ∀ leaf : Value, leaf.isTable = false → (found = some leaf ↔ other = some leaf)) :
    found.map top = other.map top := by
  rcases found with _ | first <;> rcases other with _ | second
  · rfl
  · exact absurd ((leaves second (by simpa using tables)).2 rfl) nofun
  · exact absurd ((leaves first (by simpa using tables.symm)).1 rfl) nofun
  · cases isTable : first.isTable with
    | false => rw [(leaves first isTable).1 rfl]
    | true =>
      have also : second.isTable = true := by simpa [isTable] using tables.symm
      obtain ⟨entries, rfl⟩ := exists_of_isTable isTable
      obtain ⟨others, rfl⟩ := exists_of_isTable also
      rfl

end UtilityCss.Value
