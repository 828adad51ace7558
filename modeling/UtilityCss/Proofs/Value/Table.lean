import Mathlib.Data.List.Nodup
import Mathlib.Tactic.SplitIfs
import UtilityCss.Value.Table

set_option autoImplicit false

namespace UtilityCss.Table

variable {α : Type} {key : String} {value : α} {table : Table α}

theorem mem_of_get? (found : get? key table = some value) : (key, value) ∈ table := by
  induction table with
  | nil => simp [get?] at found
  | cons entry rest ih =>
    obtain ⟨other, old⟩ := entry
    by_cases same : key = other
    · subst same
      simp_all [get?]
    · rw [get?, if_neg same] at found
      exact List.mem_cons_of_mem _ (ih found)

theorem get?_eq_none_iff : get? key table = none ↔ key ∉ table.map Prod.fst := by
  induction table with
  | nil => simp [get?]
  | cons entry rest ih =>
    obtain ⟨other, old⟩ := entry
    by_cases same : key = other <;> simp [get?, same, ih]

theorem get?_isSome_iff : (get? key table).isSome ↔ key ∈ table.map Prod.fst := by
  rw [← not_iff_not, ← get?_eq_none_iff]
  simp

theorem get?_eq_some_iff (distinct : (table.map Prod.fst).Nodup) :
    get? key table = some value ↔ (key, value) ∈ table := by
  constructor
  · exact mem_of_get?
  · intro member
    induction table with
    | nil => simp at member
    | cons entry rest ih =>
      obtain ⟨other, old⟩ := entry
      obtain ⟨absent, others⟩ := List.nodup_cons.1 distinct
      rcases List.mem_cons.1 member with same | later
      · cases same
        simp [get?]
      · have different : key ≠ other := by
          rintro rfl
          exact absent (List.mem_map.2 ⟨_, later, rfl⟩)
        rw [get?, if_neg different]
        exact ih others later

theorem mem_insert {other : String} {old : α} (member : (other, old) ∈ insert key value table) :
    (other = key ∧ old = value) ∨ (other, old) ∈ table := by
  induction table with
  | nil => exact .inl (by simpa [insert] using member)
  | cons entry rest ih =>
    obtain ⟨first, held⟩ := entry
    simp only [insert] at member
    split_ifs at member
    · rcases List.mem_cons.1 member with new | later
      · exact .inl (by simpa using new)
      · exact .inr (List.mem_cons_of_mem _ later)
    · rcases List.mem_cons.1 member with new | later
      · exact .inl (by simpa using new)
      · exact .inr later
    · rcases List.mem_cons.1 member with same | later
      · exact .inr (same ▸ List.mem_cons_self)
      · exact (ih later).imp_right (List.mem_cons_of_mem _)

theorem Ordered.insert (ordered : Ordered table) : Ordered (insert key value table) := by
  induction table with
  | nil => simp [Table.insert, Ordered]
  | cons entry rest ih =>
    obtain ⟨first, held⟩ := entry
    obtain ⟨least, others⟩ := List.pairwise_cons.1 ordered
    simp only [Table.insert]
    split_ifs with same less
    · subst same
      exact List.pairwise_cons.2 ⟨least, others⟩
    · refine List.pairwise_cons.2 ⟨fun other member => ?_, ordered⟩
      rcases List.mem_cons.1 member with rfl | later
      · exact less
      · exact String.lt_trans less (least other later)
    · refine List.pairwise_cons.2 ⟨fun other member => ?_, ih others⟩
      rcases mem_insert member with ⟨isKey, -⟩ | earlier
      · rw [isKey]
        exact Std.lt_of_le_of_ne (Std.not_lt.1 less) (Ne.symm same)
      · exact least other earlier

theorem Ordered.distinct (ordered : Ordered table) : (table.map Prod.fst).Nodup := by
  rw [List.Nodup, List.pairwise_map]
  refine ordered.imp fun {first second} less same => ?_
  rw [same] at less
  exact String.lt_irrefl _ less

theorem Ordered.ext {also : Table α} (ordered : Ordered table) (orderedAlso : Ordered also)
    (same : ∀ key, get? key table = get? key also) : table = also := by
  have members : ∀ entry, entry ∈ table ↔ entry ∈ also := by
    rintro ⟨key, value⟩
    rw [← get?_eq_some_iff ordered.distinct, same, get?_eq_some_iff orderedAlso.distinct]
  have perm : table.Perm also :=
    (List.perm_ext_iff_of_nodup ordered.distinct.of_map orderedAlso.distinct.of_map).2 members
  refine perm.eq_of_pairwise (fun first second _ _ less greater => ?_) ordered orderedAlso
  exact absurd (String.lt_trans less greater) (String.lt_irrefl _)

theorem Ordered.insert_of_get? (ordered : Ordered table) (found : get? key table = some value) :
    Table.insert key value table = table := by
  refine ordered.insert.ext ordered fun other => ?_
  by_cases same : other = key
  · rw [same, get?_insert_self, found]
  · exact get?_insert_of_ne value table same

theorem get?_filter (keep : String → Bool) (key : String) (table : Table α) :
    get? key (table.filter fun entry => keep entry.1) =
      if keep key then get? key table else none := by
  induction table with
  | nil => simp [get?]
  | cons entry rest ih =>
    obtain ⟨other, value⟩ := entry
    by_cases same : key = other
    · subst same
      cases kept : keep key <;> simp [kept, get?, ih]
    · cases kept : keep other <;> simp [kept, get?, same, ih]

theorem get?_cons_of_fresh {key other : String} {value : α} {table : Table α}
    (fresh : get? other table = none) (found : (get? key table).isSome) :
    get? key ((other, value) :: table) = get? key table := by
  rw [get?, if_neg]
  rintro rfl
  simp [fresh] at found

theorem get?_filterMap_keys (value? : String → Option α) (keys : List String) (key : String) :
    get? key (keys.filterMap fun other => (value? other).map fun value => (other, value)) =
      if key ∈ keys then value? key else none := by
  induction keys with
  | nil => rfl
  | cons first rest ih =>
    by_cases same : key = first
    · subst same
      cases found : value? key with
      | none => simp [found, ih]
      | some value => simp [found, get?]
    · cases found : value? first with
      | none => simp [found, ih, same]
      | some value => simp [found, get?, ih, same]

def behind (key : String) : Table α → Table α
  | [] => []
  | (other, _) :: rest => if key = other then rest else behind key rest

theorem get?_of_behind {key other : String} {table : Table α}
    (distinct : (table.map Prod.fst).Nodup) (found : (get? key (behind other table)).isSome) :
    get? key table = get? key (behind other table) := by
  induction table with
  | nil => rfl
  | cons entry rest ih =>
    obtain ⟨first, value⟩ := entry
    obtain ⟨absent, others⟩ := List.nodup_cons.1 distinct
    have fresh : get? first rest = none := get?_eq_none_iff.2 absent
    by_cases same : other = first
    · rw [behind, if_pos same] at found ⊢
      exact get?_cons_of_fresh fresh found
    · rw [behind, if_neg same] at found ⊢
      have later := ih others found
      rw [get?_cons_of_fresh fresh (later ▸ found), later]

theorem get?_behind_self {key : String} {table : Table α} (distinct : (table.map Prod.fst).Nodup) :
    get? key (behind key table) = none := by
  induction table with
  | nil => rfl
  | cons entry rest ih =>
    obtain ⟨first, value⟩ := entry
    obtain ⟨absent, others⟩ := List.nodup_cons.1 distinct
    by_cases same : key = first
    · rw [behind, if_pos same, same]
      exact get?_eq_none_iff.2 absent
    · rw [behind, if_neg same]
      exact ih others

theorem length_behind_of_mem {key : String} {table : Table α} (found : (get? key table).isSome) :
    (behind key table).length < table.length := by
  induction table with
  | nil => simp [get?] at found
  | cons entry rest ih =>
    obtain ⟨first, value⟩ := entry
    rw [behind, List.length_cons]
    split_ifs with same
    · omega
    · rw [get?, if_neg same] at found
      have shorter := ih found
      omega

theorem length_behind_lt {key other : String} {table : Table α}
    (distinct : (table.map Prod.fst).Nodup) (found : (get? other (behind key table)).isSome) :
    (behind other table).length < (behind key table).length := by
  induction table with
  | nil => simp [behind, get?] at found
  | cons entry rest ih =>
    obtain ⟨first, value⟩ := entry
    obtain ⟨absent, others⟩ := List.nodup_cons.1 distinct
    have fresh : get? first rest = none := get?_eq_none_iff.2 absent
    by_cases same : key = first
    · have here : behind key ((first, value) :: rest) = rest := by rw [behind, if_pos same]
      rw [here] at found ⊢
      have different : other ≠ first := by
        rintro rfl
        simp [fresh] at found
      rw [behind, if_neg different]
      exact length_behind_of_mem found
    · have later : behind key ((first, value) :: rest) = behind key rest := by
        rw [behind, if_neg same]
      rw [later] at found ⊢
      have different : other ≠ first := by
        rintro rfl
        rw [← get?_of_behind others found, fresh] at found
        cases found
      rw [behind, if_neg different]
      exact ih others found

end UtilityCss.Table
