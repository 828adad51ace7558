import UtilityCss.Proofs.Value.Table
import UtilityCss.Value.Overlay

set_option autoImplicit false

namespace UtilityCss.Value

variable {base upper : Value} {key : String} {path : List String}

def Covers : List String → Value → Prop
  | [], _ => True
  | key :: rest, .table entries => ∃ inner, (key, inner) ∈ entries ∧ Covers rest inner
  | _ :: _, _ => True

theorem get?_mergeEntries {entries : Table Value} (distinct : (entries.map Prod.fst).Nodup)
    (overlay : Table Value) (key : String) :
    Table.get? key (mergeEntries entries overlay) =
      overlay? (Table.get? key entries) (Table.get? key overlay) := by
  induction entries generalizing overlay with
  | nil => cases found : Table.get? key overlay <;> simp [mergeEntries, Table.get?, found, overlay?]
  | cons entry rest ih =>
    obtain ⟨first, value⟩ := entry
    obtain ⟨absent, others⟩ := List.nodup_cons.1 distinct
    rw [mergeEntries, ih others]
    by_cases same : key = first
    · subst same
      have fresh : Table.get? key rest = none := Table.get?_eq_none_iff.2 absent
      rw [fresh, Table.get?_insert_self, Table.get?, if_pos rfl]
      cases Table.get? key overlay <;> rfl
    · rw [Table.get?_insert_of_ne _ _ same, Table.get?, if_neg same]

theorem orderedEntries_iff {entries : Table Value} :
    OrderedEntries entries ↔ ∀ entry ∈ entries, entry.2.Ordered := by
  induction entries with
  | nil => simp [OrderedEntries]
  | cons entry rest ih => rw [OrderedEntries, ih, List.forall_mem_cons]

theorem ordered_insert {entries : Table Value} {new : Value}
    (ordered : (Value.table entries).Ordered) (isNew : new.Ordered) :
    (Value.table (Table.insert key new entries)).Ordered := by
  refine ⟨Table.Ordered.insert ordered.1, orderedEntries_iff.2 fun entry member => ?_⟩
  rcases Table.mem_insert member with ⟨-, isValue⟩ | earlier
  · rwa [isValue]
  · exact orderedEntries_iff.1 ordered.2 entry earlier

theorem valueAt_append (path more : List String) (value : Value) :
    valueAt (path ++ more) value = (valueAt path value).bind (valueAt more) := by
  induction path generalizing value with
  | nil => simp
  | cons key rest ih =>
    cases value with
    | table entries =>
      simp only [List.cons_append, valueAt_cons_table]
      cases Table.get? key entries with
      | none => rfl
      | some inner => exact ih inner
    | _ => rfl

theorem valueAt_eq_none (free : ¬ upper.Covers path) : valueAt path upper = none := by
  induction path generalizing upper with
  | nil => exact absurd trivial free
  | cons key rest ih =>
    cases upper with
    | table entries =>
      rw [valueAt_cons_table]
      cases found : Table.get? key entries with
      | none => rfl
      | some inner => exact ih fun covers => free ⟨inner, Table.mem_of_get? found, covers⟩
    | _ => exact absurd trivial free

theorem valueAt_merge (ordered : base.Ordered) (free : ¬ upper.Covers path) :
    valueAt path (merge base upper) = valueAt path base := by
  induction path generalizing base upper with
  | nil => exact absurd trivial free
  | cons key rest ih =>
    cases upper with
    | table overlay =>
      have below : ∀ inner, Table.get? key overlay = some inner → ¬ inner.Covers rest :=
        fun inner found covers => free ⟨inner, Table.mem_of_get? found, covers⟩
      have nothing : (Table.get? key overlay).bind (valueAt rest) = none := by
        cases found : Table.get? key overlay with
        | none => rfl
        | some inner => exact valueAt_eq_none (below inner found)
      cases base with
      | table entries =>
        obtain ⟨sorted, inside⟩ := ordered
        simp only [merge, valueAt_cons_table, get?_mergeEntries (Table.Ordered.distinct sorted)]
        cases isBase : Table.get? key entries with
        | none => cases found : Table.get? key overlay <;> simp_all [overlay?]
        | some value =>
          cases found : Table.get? key overlay with
          | none => rfl
          | some inner =>
            exact ih (orderedEntries_iff.1 inside _ (Table.mem_of_get? isBase)) (below inner found)
      | _ => exact nothing
    | _ => exact absurd trivial free

theorem covers_mergeEntries {rest : List String}
    (inside : ∀ base upper : Value, (merge base upper).Covers rest →
      base.Covers rest ∨ upper.Covers rest)
    {entries overlay : Table Value}
    (covers : (table (mergeEntries entries overlay)).Covers (key :: rest)) :
    (table entries).Covers (key :: rest) ∨ (table overlay).Covers (key :: rest) := by
  induction entries generalizing overlay with
  | nil => exact .inr covers
  | cons entry others ih =>
    obtain ⟨first, value⟩ := entry
    rw [mergeEntries] at covers
    rcases ih covers with ⟨inner, member, below⟩ | ⟨inner, member, below⟩
    · exact .inl ⟨inner, List.mem_cons_of_mem _ member, below⟩
    · rcases Table.mem_insert member with ⟨rfl, rfl⟩ | above
      · cases found : Table.get? key overlay with
        | none =>
          rw [found] at below
          exact .inl ⟨value, List.mem_cons_self, below⟩
        | some above =>
          rw [found] at below
          exact (inside value above below).imp (fun lower => ⟨value, List.mem_cons_self, lower⟩)
            fun upper => ⟨above, Table.mem_of_get? found, upper⟩
      · exact .inr ⟨inner, above, below⟩

theorem covers_merge (covers : (merge base upper).Covers path) :
    base.Covers path ∨ upper.Covers path := by
  induction path generalizing base upper with
  | nil => exact .inl trivial
  | cons key rest ih =>
    cases upper with
    | table overlay =>
      cases base with
      | table entries => exact covers_mergeEntries (fun _ _ => ih) covers
      | _ => exact .inl trivial
    | _ => exact .inr trivial

theorem covers_extendWith {running : Option Value} {extension : Value}
    (covers : (extendWith running extension).Covers path) :
    (∃ value, running = some value ∧ value.Covers path) ∨ extension.Covers path := by
  cases running with
  | none => exact .inr covers
  | some value => exact (covers_merge covers).imp_left fun lower => ⟨value, rfl, lower⟩

end UtilityCss.Value
