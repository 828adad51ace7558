import UtilityCss.Proofs.Value.Paths

set_option autoImplicit false

namespace UtilityCss.Value

/-- The last value on the way along a path: the one at the path, or the one where the way ends. -/
def deepest : List String → Value → Value
  | key :: rest, .table entries =>
    match Table.get? key entries with
    | none => .table entries
    | some inner => deepest rest inner
  | _, value => value

variable {base upper above value : Value} {path : List String}

theorem merge_leaf (leaf : base.isTable = false) : merge base upper = upper := by
  cases base with
  | table entries => cases leaf
  | _ => rfl

theorem merge_over (leaf : upper.isTable = false) : merge base upper = upper := by
  cases upper with
  | table entries => cases leaf
  | _ => cases base <;> rfl

theorem top_merge (base upper : Value) : (merge base upper).top = upper.top := by
  cases base <;> cases upper <;> rfl

theorem top_extendWith (running : Option Value) (above : Value) :
    (extendWith running above).top = above.top := by
  cases running with
  | none => rfl
  | some base => exact top_merge base above

theorem valueAt_merge_of_some (ordered : base.Ordered) (found : valueAt path upper = some above) :
    valueAt path (merge base upper) = some (extendWith (valueAt path base) above) := by
  induction path generalizing base upper with
  | nil =>
    obtain rfl : upper = above := by simpa using found
    simp [extendWith]
  | cons key rest ih =>
    cases upper with
    | table overlay =>
      rw [valueAt_cons_table] at found
      obtain ⟨inner, isInner, below⟩ := Option.bind_eq_some_iff.1 found
      cases base with
      | table entries =>
        rw [merge, valueAt_cons_table, get?_mergeEntries (Table.Ordered.distinct ordered.1),
          isInner, valueAt_cons_table]
        cases isBase : Table.get? key entries with
        | none => exact below
        | some value =>
          exact ih (orderedEntries_iff.1 ordered.2 _ (Table.mem_of_get? isBase)) below
      | _ => exact found
    | _ => cases found

theorem valueAt_merge_of_none (ordered : base.Ordered) (missing : valueAt path upper = none) :
    valueAt path (merge base upper) =
      if (deepest path upper).isTable then valueAt path base else none := by
  induction path generalizing base upper with
  | nil => simp at missing
  | cons key rest ih =>
    cases upper with
    | table overlay =>
      rw [valueAt_cons_table] at missing
      cases isInner : Table.get? key overlay with
      | none =>
        have inTable : (deepest (key :: rest) (table overlay)).isTable = true := by
          simp [deepest, isInner, isTable]
        rw [if_pos inTable]
        cases base with
        | table entries =>
          rw [merge, valueAt_cons_table, get?_mergeEntries (Table.Ordered.distinct ordered.1),
            isInner, valueAt_cons_table]
          cases Table.get? key entries <;> rfl
        | _ =>
          rw [merge_leaf rfl, valueAt_cons_table, isInner]
          rfl
      | some inner =>
        have goes : deepest (key :: rest) (table overlay) = deepest rest inner := by
          simp [deepest, isInner]
        rw [isInner, Option.bind_some] at missing
        rw [goes]
        cases base with
        | table entries =>
          rw [merge, valueAt_cons_table, get?_mergeEntries (Table.Ordered.distinct ordered.1),
            isInner, valueAt_cons_table]
          cases isBase : Table.get? key entries with
          | none => simpa [overlay?] using missing
          | some value =>
            exact ih (orderedEntries_iff.1 ordered.2 _ (Table.mem_of_get? isBase)) missing
        | _ =>
          rw [merge_leaf rfl, valueAt_cons_table, isInner, Option.bind_some, missing,
            valueAt_cons_leaf rfl, ite_self]
    | _ => rw [merge_over rfl, valueAt_cons_leaf rfl]; rfl

theorem ordered_mergeEntries {entries overlay : Table Value}
    (inside : ∀ entry ∈ entries, ∀ {upper : Value}, upper.Ordered → (merge entry.2 upper).Ordered)
    (lower : ∀ entry ∈ entries, entry.2.Ordered) (ordered : (table overlay).Ordered) :
    (table (mergeEntries entries overlay)).Ordered := by
  induction entries generalizing overlay with
  | nil => exact ordered
  | cons entry rest ih =>
    obtain ⟨first, others⟩ := List.forall_mem_cons.1 inside
    obtain ⟨own, later⟩ := List.forall_mem_cons.1 lower
    refine ih others later (ordered_insert ordered ?_)
    cases found : Table.get? entry.1 overlay with
    | none => exact own
    | some above => exact first (orderedEntries_iff.1 ordered.2 _ (Table.mem_of_get? found))

theorem ordered_merge (ordered : base.Ordered) (also : upper.Ordered) :
    (merge base upper).Ordered := by
  induction base using table_induction generalizing upper with
  | leaf base leaf => rwa [merge_leaf leaf]
  | table entries ih =>
    have lower := orderedEntries_iff.1 ordered.2
    cases upper with
    | table overlay =>
      exact ordered_mergeEntries (fun entry member _ => ih entry member (lower entry member))
        lower also
    | _ => exact also

theorem merge_self (ordered : value.Ordered) : merge value value = value := by
  apply ext_of_tops (ordered_merge ordered ordered) ordered
  intro path
  cases found : valueAt path value with
  | none => rw [valueAt_merge_of_none ordered found, found, ite_self]
  | some above => simp [valueAt_merge_of_some ordered found, top_extendWith]

theorem merge_merge_self (ordered : base.Ordered) (also : upper.Ordered) :
    merge (merge base upper) upper = merge base upper := by
  have once := ordered_merge ordered also
  apply ext_of_tops (ordered_merge once also) once
  intro path
  cases found : valueAt path upper with
  | none =>
    rw [valueAt_merge_of_none once found, valueAt_merge_of_none ordered found]
    split_ifs <;> rfl
  | some above =>
    simp [valueAt_merge_of_some once found, valueAt_merge_of_some ordered found, top_extendWith]

/-- Along every path a leaf of the upper value wins, a table of it is merged with one below it or
stands alone, and where it has nothing the lower value shows, unless a leaf of it stands above. -/
theorem merge_along_paths (ordered : base.Ordered) (also : upper.Ordered) :
    (∀ path,
      (∀ leaf, leaf.isTable = false → valueAt path upper = some leaf →
        valueAt path (merge base upper) = some leaf) ∧
      (valueAt path upper = none → (deepest path upper).isTable = true →
        valueAt path (merge base upper) = valueAt path base) ∧
      (valueAt path upper = none → (deepest path upper).isTable = false →
        valueAt path (merge base upper) = none) ∧
      ∀ entries, valueAt path upper = some (table entries) →
        (∀ below, valueAt path base = some (table below) →
          valueAt path (merge base upper) = some (merge (table below) (table entries))) ∧
        ((∀ below, valueAt path base ≠ some (table below)) →
          valueAt path (merge base upper) = some (table entries))) ∧
    merge base base = base ∧ merge (merge base upper) upper = merge base upper := by
  refine ⟨fun path => ⟨?_, ?_, ?_, fun entries found => ⟨?_, ?_⟩⟩, merge_self ordered,
    merge_merge_self ordered also⟩
  · intro leaf isLeaf found
    rw [valueAt_merge_of_some ordered found]
    cases valueAt path base with
    | none => rfl
    | some below => exact congrArg some (merge_over isLeaf)
  · intro missing inTable
    rw [valueAt_merge_of_none ordered missing, if_pos inTable]
  · intro missing cutOff
    rw [valueAt_merge_of_none ordered missing, if_neg (by simp [cutOff])]
  · intro below isBelow
    rw [valueAt_merge_of_some ordered found, isBelow]
    rfl
  · intro noTable
    rw [valueAt_merge_of_some ordered found]
    cases isBelow : valueAt path base with
    | none => rfl
    | some below =>
      have leaf : below.isTable = false := by
        cases below with
        | table inner => exact absurd isBelow (noTable inner)
        | _ => rfl
      exact congrArg some (merge_leaf leaf)

def daylight : Value :=
  .table [("colors", .table [("blue", .string "#00f"), ("red", .string "#f00")]),
    ("font", .table [("sans", .string "Inter")]), ("spacing", .string "4px")]

def dusk : Value :=
  .table [("colors", .table [("red", .string "#800")]), ("font", .string "Serif"),
    ("spacing", .table [("wide", .string "8px")])]

theorem merge_along_paths_of_dusk :
    daylight.Ordered ∧ dusk.Ordered ∧
      valueAt ["colors"] (merge daylight dusk) =
        some (merge (.table [("blue", .string "#00f"), ("red", .string "#f00")])
          (.table [("red", .string "#800")])) ∧
      valueAt ["colors", "red"] (merge daylight dusk) = some (.string "#800") ∧
      valueAt ["colors", "blue"] (merge daylight dusk) = some (.string "#00f") ∧
      valueAt ["font", "sans"] (merge daylight dusk) = none ∧
      valueAt ["spacing"] (merge daylight dusk) = some (.table [("wide", .string "8px")]) ∧
      merge daylight daylight = daylight ∧
      merge (merge daylight dusk) dusk = merge daylight dusk := by
  have ordered : daylight.Ordered :=
    ⟨by decide, ⟨by decide, trivial, trivial, trivial⟩, ⟨by decide, trivial, trivial⟩, trivial,
      trivial⟩
  have also : dusk.Ordered :=
    ⟨by decide, ⟨by decide, trivial, trivial⟩, trivial, ⟨by decide, trivial, trivial⟩, trivial⟩
  obtain ⟨along, self, again⟩ := merge_along_paths ordered also
  refine ⟨ordered, also, ((along _).2.2.2 _ rfl).1 _ rfl, (along _).1 _ rfl rfl,
    (along _).2.1 rfl rfl, (along _).2.2.1 rfl rfl, ((along _).2.2.2 _ rfl).2 ?_, self, again⟩
  intro below found
  cases found

end UtilityCss.Value
