import UtilityCss.Proofs.Value.Table
import UtilityCss.Theme.Resolution

set_option autoImplicit false

namespace UtilityCss.Theme

open UtilityCss.Config

namespace Memory

variable {key other : String} {value : Option Value} {m before after : Memory}

theorem find?_forget (m : Memory) (key other : String) :
    (m.forget key).find? (fun entry => entry.1 = other) =
      if other = key then none else m.known.find? fun entry => entry.1 = other := by
  unfold forget
  rw [List.find?_filter]
  split_ifs with same
  · subst same
    simp
  · congr 1
    funext entry
    by_cases found : entry.1 = other <;> simp [found, same]

@[simp] theorem progress?_empty (key : String) : empty.progress? key = none := rfl

theorem progress?_enter (m : Memory) (key other : String) :
    (m.enter key).progress? other = if other = key then some .entered else m.progress? other := by
  unfold progress? enter
  by_cases same : other = key
  · simp [same]
  · simp [Ne.symm same, same, find?_forget]

theorem progress?_leave_ok (m : Memory) (key other : String) (value : Option Value) :
    (m.leave key (.ok value)).progress? other =
      if other = key then some (.finished value) else m.progress? other := by
  unfold progress? leave
  by_cases same : other = key
  · simp [same]
  · simp [Ne.symm same, same, find?_forget]

theorem progress?_leave_error (m : Memory) (key other : String) (error : SettingsError) :
    (m.leave key (.error error)).progress? other =
      if other = key then none else m.progress? other := by
  unfold progress? leave
  by_cases same : other = key <;> simp [same, find?_forget]

theorem progress?_leave_of_ne (m : Memory) (result : Except SettingsError (Option Value))
    (different : other ≠ key) : (m.leave key result).progress? other = m.progress? other := by
  cases result <;> simp [progress?_leave_ok, progress?_leave_error, different]

@[simp] theorem chain_enter (m : Memory) (key : String) :
    (m.enter key).chain = m.chain ++ [key] := rfl

@[simp] theorem chain_leave (m : Memory) (key : String)
    (result : Except SettingsError (Option Value)) :
    (m.leave key result).chain = m.chain.dropLast := by cases result <;> rfl

theorem isEntered_iff : m.isEntered key = true ↔ m.progress? key = some .entered := by
  unfold isEntered
  split <;> simp_all

structure Valid (m : Memory) : Prop where
  distinct : (m.known.map Prod.fst).Nodup
  nodup : m.chain.Nodup
  entered : ∀ key, m.progress? key = some .entered ↔ key ∈ m.chain

structure Grows (before after : Memory) : Prop where
  chain : after.chain = before.chain
  finished : ∀ key value, before.progress? key = some (.finished value) →
    after.progress? key = some (.finished value)

theorem Grows.refl (m : Memory) : m.Grows m := ⟨rfl, fun _ _ known => known⟩

theorem Grows.trans {last : Memory} (first : before.Grows after) (rest : after.Grows last) :
    before.Grows last :=
  ⟨rest.chain.trans first.chain, fun key value known =>
    rest.finished key value (first.finished key value known)⟩

theorem valid_empty : empty.Valid where
  distinct := List.nodup_nil
  nodup := List.nodup_nil
  entered key := by simp [empty, progress?]

theorem Grows.entered (grows : before.Grows after) (first : before.Valid) (last : after.Valid)
    (key : String) : after.progress? key = some .entered ↔ before.progress? key = some .entered := by
  rw [last.entered, first.entered, grows.chain]

theorem distinct_cons_forget (valid : m.Valid) (key : String) (progress : Progress) :
    (((key, progress) :: m.forget key).map Prod.fst).Nodup := by
  rw [List.map_cons, List.nodup_cons]
  constructor
  · simp [forget]
  · exact valid.distinct.sublist (List.filter_sublist.map _)

theorem Valid.enter (valid : m.Valid) (unknown : m.progress? key = none) :
    (m.enter key).Valid where
  distinct := distinct_cons_forget valid key .entered
  nodup := by
    have absent : key ∉ m.chain := fun member => by
      simp [(valid.entered key).2 member] at unknown
    simpa [List.nodup_append, valid.nodup] using fun other member (same : other = key) =>
      absent (same ▸ member)
  entered other := by
    rw [progress?_enter, chain_enter, List.mem_append, List.mem_singleton, ← valid.entered]
    split_ifs with same <;> simp [same]

-- The key that is left is the one that was entered last: `chain` gives the shape of the chain.
theorem Valid.leave (valid : after.Valid) (chain : after.chain = before.chain ++ [key])
    (result : Except SettingsError (Option Value)) : (after.leave key result).Valid where
  distinct := by
    cases result with
    | ok value => exact distinct_cons_forget valid key _
    | error error => exact valid.distinct.sublist (List.filter_sublist.map _)
  nodup := by
    rw [chain_leave]
    exact valid.nodup.sublist (List.dropLast_sublist _)
  entered other := by
    have absent : key ∉ before.chain := by
      have nodup := valid.nodup
      rw [chain, List.nodup_append] at nodup
      exact fun member => nodup.2.2 key member key (by simp) rfl
    rw [chain_leave, chain, List.dropLast_concat]
    by_cases same : other = key
    · subst same
      cases result <;> simp [progress?_leave_ok, progress?_leave_error, absent]
    · rw [progress?_leave_of_ne _ _ same, valid.entered, chain]
      simp [same]

theorem Grows.leave (grows : (m.enter key).Grows after) (unknown : m.progress? key = none)
    (result : Except SettingsError (Option Value)) : m.Grows (after.leave key result) where
  chain := by
    rw [chain_leave, grows.chain, chain_enter, List.dropLast_concat]
  finished other value known := by
    have different : other ≠ key := by
      rintro rfl
      simp [unknown] at known
    rw [progress?_leave_of_ne _ _ different]
    apply grows.finished other value
    rw [progress?_enter, if_neg different, known]

def settledPair? : String × Progress → Option (String × Option Value)
  | (key, .finished value) => some (key, value)
  | (_, .entered) => none

def settled (m : Memory) : Table (Option Value) := m.known.filterMap settledPair?

theorem progress?_eq_some_iff (valid : m.Valid) {progress : Progress} :
    m.progress? key = some progress ↔ (key, progress) ∈ m.known := by
  have lookup : m.progress? key = Table.get? key m.known := by
    unfold progress?
    induction m.known with
    | nil => rfl
    | cons entry rest ih =>
      obtain ⟨other, old⟩ := entry
      by_cases same : key = other
      · simp [Table.get?, same]
      · simpa [Table.get?, same, Ne.symm same] using ih
  rw [lookup, Table.get?_eq_some_iff valid.distinct]

theorem mem_settled : (key, value) ∈ m.settled ↔ (key, .finished value) ∈ m.known := by
  unfold settled
  rw [List.mem_filterMap]
  constructor
  · rintro ⟨⟨other, progress⟩, member, found⟩
    cases progress <;> simp_all [settledPair?]
  · exact fun member => ⟨_, member, rfl⟩

theorem map_fst_settled (m : Memory) : (m.settled.map Prod.fst).Sublist (m.known.map Prod.fst) := by
  unfold settled
  induction m.known with
  | nil => exact List.nil_sublist _
  | cons entry rest ih =>
    obtain ⟨other, progress⟩ := entry
    cases progress with
    | entered => exact ih.cons _
    | finished value => exact ih.cons_cons _

theorem distinct_settled (valid : m.Valid) : (m.settled.map Prod.fst).Nodup :=
  valid.distinct.sublist (map_fst_settled m)

theorem get?_settled (valid : m.Valid) :
    Table.get? key m.settled = some value ↔ m.progress? key = some (.finished value) := by
  rw [Table.get?_eq_some_iff (distinct_settled valid), mem_settled, progress?_eq_some_iff valid]

theorem settled_enter (unknown : m.progress? key = none) : (m.enter key).settled = m.settled := by
  -- Nothing is known about the key, so there is nothing to forget.
  have same : m.forget key = m.known := by
    unfold forget
    rw [List.filter_eq_self]
    intro entry member
    have absent : m.known.find? (fun entry => entry.1 = key) = none := by
      simpa [progress?] using unknown
    simpa using List.find?_eq_none.1 absent entry member
  unfold settled enter
  rw [same, List.filterMap_cons_none rfl]

theorem filterMap_forget (valid : m.Valid) (entered : m.progress? key = some .entered) :
    (m.forget key).filterMap settledPair? = m.settled := by
  unfold settled forget
  rw [List.filterMap_filter]
  apply List.filterMap_congr
  intro entry member
  obtain ⟨other, progress⟩ := entry
  cases progress with
  | entered => simp [settledPair?]
  | finished value =>
    -- A finished key is another one than the key that is being computed.
    have different : other ≠ key := by
      rintro rfl
      rw [(progress?_eq_some_iff valid).2 member] at entered
      cases entered
    simp [different]

theorem settled_leave_ok (valid : m.Valid) (entered : m.progress? key = some .entered)
    (value : Option Value) : (m.leave key (.ok value)).settled = (key, value) :: m.settled := by
  rw [← filterMap_forget valid entered]
  exact List.filterMap_cons_some rfl

theorem settled_leave_error (valid : m.Valid) (entered : m.progress? key = some .entered)
    (error : SettingsError) : (m.leave key (.error error)).settled = m.settled :=
  filterMap_forget valid entered

end Memory

end UtilityCss.Theme
