import UtilityCss.Proofs.Value.Paths

set_option autoImplicit false

namespace UtilityCss.Value

mutual

def strings : Value → List String
  | .string text => [text]
  | .array items => itemStrings items
  | .table entries => entryStrings entries
  | _ => []

def itemStrings : List Value → List String
  | [] => []
  | item :: rest => strings item ++ itemStrings rest

def entryStrings : List (String × Value) → List String
  | [] => []
  | (_, value) :: rest => strings value ++ entryStrings rest

end

def Only (kind : String → Prop) (value : Value) : Prop := ∀ text ∈ value.strings, kind text

variable {kind : String → Prop} {base upper value : Value} {entries overlay : Table Value}
  {items : List Value} {key : String}

theorem only_string {text : String} : (Value.string text).Only kind ↔ kind text := by
  simp [Only, strings]

theorem mem_itemStrings {text : String} :
    text ∈ itemStrings items ↔ ∃ item ∈ items, text ∈ item.strings := by
  induction items with
  | nil => simp [itemStrings]
  | cons item rest ih => simp [itemStrings, ih]

theorem mem_entryStrings {text : String} :
    text ∈ entryStrings entries ↔ ∃ entry ∈ entries, text ∈ entry.2.strings := by
  induction entries with
  | nil => simp [entryStrings]
  | cons entry rest ih => simp [entryStrings, ih]

theorem only_array : (Value.array items).Only kind ↔ ∀ item ∈ items, item.Only kind := by
  simp only [Only, strings, mem_itemStrings]
  constructor
  · exact fun only item member text inside => only text ⟨item, member, inside⟩
  · rintro only text ⟨item, member, inside⟩
    exact only item member text inside

theorem only_table : (Value.table entries).Only kind ↔ ∀ entry ∈ entries, entry.2.Only kind := by
  simp only [Only, strings, mem_entryStrings]
  constructor
  · exact fun only entry member text inside => only text ⟨entry, member, inside⟩
  · rintro only text ⟨entry, member, inside⟩
    exact only entry member text inside

theorem Only.entry (only : (Value.table entries).Only kind)
    (found : Table.get? key entries = some value) : value.Only kind :=
  only_table.1 only (key, value) (Table.mem_of_get? found)

theorem only_insert (only : (Value.table entries).Only kind) (isValue : value.Only kind) :
    (Value.table (Table.insert key value entries)).Only kind := by
  refine only_table.2 fun entry member => ?_
  obtain ⟨-, same⟩ | earlier := Table.mem_insert member
  · rwa [same]
  · exact only_table.1 only entry earlier

theorem only_mergeEntries
    (merges : ∀ entry ∈ entries, ∀ upper : Value, upper.Only kind → (merge entry.2 upper).Only kind)
    (lower : (Value.table entries).Only kind) (above : (Value.table overlay).Only kind) :
    (Value.table (mergeEntries entries overlay)).Only kind := by
  induction entries generalizing overlay with
  | nil => exact above
  | cons entry rest ih =>
    obtain ⟨first, value⟩ := entry
    obtain ⟨own, others⟩ := List.forall_mem_cons.1 (only_table.1 lower)
    obtain ⟨mergesOwn, mergesOthers⟩ := List.forall_mem_cons.1 merges
    rw [mergeEntries]
    refine ih mergesOthers (only_table.2 others) (only_insert above ?_)
    cases found : Table.get? first overlay with
    | none => exact own
    | some inner => exact mergesOwn inner (above.entry found)

theorem only_merge (lower : base.Only kind) (above : upper.Only kind) :
    (merge base upper).Only kind := by
  induction base using table_induction generalizing upper with
  | leaf base isLeaf =>
    cases base with
    | table entries => cases isLeaf
    | _ => exact above
  | table entries ih =>
    cases upper with
    | table overlay =>
      refine only_mergeEntries (fun entry member upper isUpper => ?_) lower above
      exact ih entry member (only_table.1 lower entry member) isUpper
    | _ => exact above

theorem only_extendWith {running : Option Value} (lower : ∀ base ∈ running, base.Only kind)
    (above : upper.Only kind) : (extendWith running upper).Only kind := by
  cases running with
  | none => exact above
  | some base => exact only_merge (lower base rfl) above

theorem only_overlay? {base upper : Option Value} (lower : ∀ value ∈ base, value.Only kind)
    (above : ∀ value ∈ upper, value.Only kind) : ∀ value ∈ overlay? base upper, value.Only kind := by
  cases base with
  | none =>
    cases upper with
    | none => exact above
    | some upper => exact above
  | some base =>
    cases upper with
    | none => exact lower
    | some upper =>
      rintro value ⟨⟩
      exact only_merge (lower base rfl) (above upper rfl)

end UtilityCss.Value
