import UtilityCss.Proofs.Value.Merge
import UtilityCss.Theme.Tokens

set_option autoImplicit false

namespace UtilityCss.Theme

variable {path place : List String} {key : String} {table : Table Value} {value : Value}

def ownAt (path : List String) (value : Value) : Option Value :=
  match Value.valueAt path value with
  | some (.table entries) => Table.get? leafKey entries
  | found => found

def nestsAt (path : List String) (value : Value) : Bool :=
  (Value.valueAt path value).any Value.isTable

def Clear : List String → Value → Prop
  | [], _ => True
  | key :: rest, .table entries => ∀ inner, Table.get? key entries = some inner → Clear rest inner
  | key :: _, _ => key ≠ leafKey

def Apart (path place : List String) : Prop :=
  ¬ path ++ [leafKey] <+: place ∧ ¬ place ++ [leafKey] <+: path

instance (path place : List String) : Decidable (Apart path place) :=
  inferInstanceAs (Decidable (_ ∧ _))

@[simp] theorem ownAt_nil_table : ownAt [] (.table table) = Table.get? leafKey table := rfl

@[simp] theorem ownAt_cons_table : ownAt (key :: path) (.table table) =
    (Table.get? key table).bind (ownAt path) := by
  unfold ownAt
  rw [Value.valueAt_cons_table]
  cases Table.get? key table <;> rfl

@[simp] theorem nestsAt_nil_table : nestsAt [] (.table table) = true := rfl

@[simp] theorem nestsAt_cons_table : nestsAt (key :: path) (.table table) =
    (Table.get? key table).any (nestsAt path) := by
  unfold nestsAt
  rw [Value.valueAt_cons_table]
  cases Table.get? key table <;> rfl

theorem Apart.tail (apart : Apart (key :: path) (key :: place)) : Apart path place :=
  ⟨fun through => apart.1 (by simpa using through), fun through => apart.2 (by simpa using through)⟩

theorem get?_insertAt_of_ne {other : String} (different : other ≠ key) :
    Table.get? other (insertAt (key :: path) value table) = Table.get? other table := by
  cases path with
  | nil =>
    unfold insertAt
    split <;> exact Table.get?_insert_of_ne _ _ different
  | cons next rest => exact Table.get?_insert_of_ne _ _ different

section Leaves

variable (leaf : value.isTable = false)

include leaf

theorem ownAt_nil_leaf : ownAt [] value = some value := by
  cases value with
  | table entries => cases leaf
  | _ => rfl

theorem ownAt_cons_leaf : ownAt (key :: path) value = none := by
  cases value with
  | table entries => cases leaf
  | _ => rfl

theorem nestsAt_leaf : nestsAt path value = false := by
  cases value with
  | table entries => cases leaf
  | _ => cases path <;> rfl

theorem clear_cons_leaf : Clear (key :: path) value ↔ key ≠ leafKey := by
  cases value with
  | table entries => cases leaf
  | _ => exact Iff.rfl

end Leaves

theorem get?_cases (key : String) (table : Table Value) :
    (Table.get? key table = none ∧ nestedEntries key table = []) ∨
    (∃ leaf, Table.get? key table = some leaf ∧ leaf.isTable = false ∧
      nestedEntries key table = [(leafKey, leaf)]) ∨
    ∃ entries, Table.get? key table = some (.table entries) ∧
      nestedEntries key table = entries := by
  rcases found : Table.get? key table with _ | value
  · exact .inl ⟨rfl, by simp [nestedEntries, found]⟩
  · cases value with
    | table entries => exact .inr (.inr ⟨entries, rfl, by simp [nestedEntries, found]⟩)
    | _ => exact .inr (.inl ⟨_, rfl, rfl, by simp [nestedEntries, found]⟩)

theorem clear_nested (clear : Clear (key :: path) (.table table)) :
    Clear path (.table (nestedEntries key table)) := by
  cases path with
  | nil => trivial
  | cons next rest =>
    rcases get?_cases key table with ⟨-, same⟩ | ⟨leaf, found, isLeaf, same⟩ | ⟨entries, found, same⟩
    · simp [same, Clear, Table.get?]
    · have different : next ≠ leafKey := (clear_cons_leaf isLeaf).1 (clear leaf found)
      simp [same, Clear, Table.get?, different]
    · rw [same]
      exact clear _ found

theorem ownAt_nested (clear : Clear (key :: path) (.table table)) :
    ownAt path (.table (nestedEntries key table)) =
      (Table.get? key table).bind (ownAt path) := by
  rcases get?_cases key table with
    ⟨found, same⟩ | ⟨leaf, found, isLeaf, same⟩ | ⟨entries, found, same⟩
  · cases path <;> simp [same, found, Table.get?]
  · cases path with
    | nil => simp [same, found, Table.get?, ownAt_nil_leaf isLeaf]
    | cons next rest =>
      have different : next ≠ leafKey := (clear_cons_leaf isLeaf).1 (clear leaf found)
      simp [same, found, Table.get?, different, ownAt_cons_leaf isLeaf]
  · simp [same, found]

theorem nestsAt_nested {next : String} (clear : Clear (key :: next :: path) (.table table)) :
    nestsAt (next :: path) (.table (nestedEntries key table)) =
      (Table.get? key table).any (nestsAt (next :: path)) := by
  rcases get?_cases key table with
    ⟨found, same⟩ | ⟨leaf, found, isLeaf, same⟩ | ⟨entries, found, same⟩
  · simp [same, found, Table.get?]
  · have different : next ≠ leafKey := (clear_cons_leaf isLeaf).1 (clear leaf found)
    simp [same, found, Table.get?, different, nestsAt_leaf isLeaf]
  · simp [same, found]

structure Placed (path place : List String) (leaf : Value) (before after : Table Value) : Prop where
  own : ownAt path (.table after) =
    if path = place then some leaf else ownAt path (.table before)
  nests : nestsAt path (.table after) =
    (nestsAt path (.table before) || decide (path <+: place ∧ path ≠ place))
  clear : Clear path (.table after)

theorem placed_of_ne {next : String} {more : List String} (different : key ≠ next)
    (clear : Clear (key :: path) (.table table)) :
    Placed (key :: path) (next :: more) value table (insertAt (next :: more) value table) where
  own := by simp [get?_insertAt_of_ne different, different]
  nests := by simp [get?_insertAt_of_ne different, different]
  clear := by
    intro inner found
    rw [get?_insertAt_of_ne different] at found
    exact clear inner found

theorem bind_ownAt_of_leaf {found : Option Value} (leaf : found.any Value.isTable = false) :
    found.bind (ownAt (key :: path)) = none := by
  cases found with
  | none => rfl
  | some value => exact ownAt_cons_leaf (by simpa using leaf)

theorem any_nestsAt_of_leaf {found : Option Value} (leaf : found.any Value.isTable = false) :
    found.any (nestsAt path) = false := by
  cases found with
  | none => rfl
  | some value => exact nestsAt_leaf (by simpa using leaf)

theorem get?_insertAt_one (key : String) (value : Value) (table : Table Value) :
    (∃ entries, Table.get? key table = some (.table entries) ∧
      Table.get? key (insertAt [key] value table) =
        some (.table (Table.insert leafKey value entries))) ∨
    (Table.get? key table).any Value.isTable = false ∧
      Table.get? key (insertAt [key] value table) = some value := by
  rcases get?_cases key table with ⟨found, -⟩ | ⟨old, found, leaf, -⟩ | ⟨entries, found, -⟩
  · exact .inr ⟨by simp [found], by simp [insertAt, found]⟩
  · refine .inr ⟨by simp [found, leaf], ?_⟩
    cases old with
    | table entries => cases leaf
    | _ => simp [insertAt, found]
  · exact .inl ⟨entries, found, by simp [insertAt, found]⟩

theorem placed_one (leaf : value.isTable = false) (clear : Clear (key :: path) (.table table))
    (apart : Apart (key :: path) [key]) :
    Placed (key :: path) [key] value table (insertAt [key] value table) := by
  rcases get?_insertAt_one key value table with ⟨entries, found, after⟩ | ⟨nothing, after⟩
  · cases path with
    | nil => exact ⟨by simp [after], by simp [after, found], by simp [Clear]⟩
    | cons next rest =>
      -- The new entry stands under the default key, and the path goes elsewhere.
      have away : next ≠ leafKey := by
        rintro rfl
        exact apart.2 (by simp)
      have below : Clear (next :: rest) (.table entries) := clear _ found
      refine ⟨?_, ?_, ?_⟩
      · simp [after, found, Table.get?_insert_of_ne _ _ away]
      · simp [after, found, Table.get?_insert_of_ne _ _ away]
      · simpa [Clear, after, Table.get?_insert_of_ne _ _ away] using below
  · cases path with
    | nil =>
      refine ⟨by simp [after, ownAt_nil_leaf leaf], ?_, by simp [Clear]⟩
      simp [after, nestsAt_leaf leaf, any_nestsAt_of_leaf nothing]
    | cons next rest =>
      have away : next ≠ leafKey := by
        rintro rfl
        exact apart.2 (by simp)
      refine ⟨?_, ?_, ?_⟩
      · simp [after, ownAt_cons_leaf leaf, bind_ownAt_of_leaf nothing]
      · simp [after, nestsAt_leaf leaf, any_nestsAt_of_leaf nothing]
      · simp [Clear, after, clear_cons_leaf leaf, away]

theorem placed_insertAt (leaf : value.isTable = false) (clear : Clear path (.table table))
    (apart : Apart path place) (nonempty : place ≠ []) :
    Placed path place value table (insertAt place value table) := by
  induction path generalizing place table with
  | nil =>
    obtain ⟨next, more, rfl⟩ := List.exists_cons_of_ne_nil nonempty
    have away : leafKey ≠ next := by
      rintro rfl
      exact apart.1 (by simp)
    exact ⟨by simp [get?_insertAt_of_ne away], by simp, trivial⟩
  | cons key rest ih =>
    obtain ⟨next, more, rfl⟩ := List.exists_cons_of_ne_nil nonempty
    by_cases same : key = next
    · subst same
      cases more with
      | nil => exact placed_one leaf clear apart
      | cons second others =>
        have after : Table.get? key (insertAt (key :: second :: others) value table) =
            some (.table (insertAt (second :: others) value (nestedEntries key table))) :=
          Table.get?_insert_self _ _ _
        have inner := ih (clear_nested clear) apart.tail (List.cons_ne_nil second others)
        refine ⟨?_, ?_, by simpa [Clear, after] using inner.clear⟩
        · simp [after, inner.own, ownAt_nested clear]
        · cases rest with
          | nil => simp [after]
          | cons following later => simp [after, inner.nests, nestsAt_nested clear]
    · exact placed_of_ne same clear

-- Leaves put in at their paths, one after the other.
def filled (leaves : List (List String × Value)) (table : Table Value) : Table Value :=
  leaves.foldl (fun table (place, value) => insertAt place value table) table

-- The path keeps its own value, whatever comes after it.
theorem placed_filled {leaves : List (List String × Value)}
    (areLeaves : ∀ entry ∈ leaves, entry.2.isTable = false ∧ entry.1 ≠ [] ∧ Apart path entry.1)
    (clear : Clear path (.table table)) :
    (∀ value, (∀ entry ∈ leaves, entry.1 = path → entry.2 = value) →
      (ownAt path (.table table) = some value ∨ ∃ entry ∈ leaves, entry.1 = path) →
      ownAt path (.table (filled leaves table)) = some value) ∧
    nestsAt path (.table (filled leaves table)) =
      (nestsAt path (.table table) ||
        leaves.any fun entry => decide (path <+: entry.1 ∧ path ≠ entry.1)) := by
  induction leaves generalizing table with
  | nil => exact ⟨by simp [filled], by simp [filled]⟩
  | cons entry rest ih =>
    obtain ⟨place, value⟩ := entry
    obtain ⟨⟨leaf, nonempty, apart⟩, others⟩ := List.forall_mem_cons.1 areLeaves
    have placed := placed_insertAt leaf clear apart nonempty
    obtain ⟨owns, nests⟩ := ih others placed.clear
    constructor
    · intro value unique known
      obtain ⟨first, later⟩ := List.forall_mem_cons.1 unique
      apply owns value later
      rw [placed.own]
      by_cases same : path = place
      · exact .inl (by rw [if_pos same, first same.symm])
      · rw [if_neg same]
        refine known.imp_right ?_
        rintro ⟨entry, member, isPath⟩
        rcases List.mem_cons.1 member with rfl | inside
        · exact absurd isPath.symm same
        · exact ⟨entry, inside, isPath⟩
    · rw [List.any_cons, ← Bool.or_assoc, ← placed.nests]
      exact nests

theorem ordered_nested (ordered : (Value.table table).Ordered) :
    (Value.table (nestedEntries key table)).Ordered := by
  have below {inner : Value} (found : Table.get? key table = some inner) : inner.Ordered :=
    Value.orderedEntries_iff.1 ordered.2 _ (Table.mem_of_get? found)
  rcases get?_cases key table with ⟨-, same⟩ | ⟨leaf, found, -, same⟩ | ⟨entries, found, same⟩
  · rw [same]
    exact ⟨List.Pairwise.nil, trivial⟩
  · rw [same]
    exact ⟨List.pairwise_singleton _ _, below found, trivial⟩
  · rw [same]
    exact below found

theorem ordered_insertAt (ordered : (Value.table table).Ordered) (isValue : value.Ordered) :
    (Value.table (insertAt path value table)).Ordered := by
  induction path generalizing table with
  | nil => exact ordered
  | cons key rest ih =>
    cases rest with
    | nil =>
      unfold insertAt
      split
      next entries found =>
        have inner := Value.orderedEntries_iff.1 ordered.2 _ (Table.mem_of_get? found)
        exact Value.ordered_insert ordered (Value.ordered_insert inner isValue)
      next => exact Value.ordered_insert ordered isValue
    | cons next others => exact Value.ordered_insert ordered (ih (ordered_nested ordered))

theorem ordered_filled {leaves : List (List String × Value)}
    (ordered : (Value.table table).Ordered) (areOrdered : ∀ entry ∈ leaves, entry.2.Ordered) :
    (Value.table (filled leaves table)).Ordered := by
  induction leaves generalizing table with
  | nil => exact ordered
  | cons entry rest ih =>
    obtain ⟨first, others⟩ := List.forall_mem_cons.1 areOrdered
    exact ih (ordered_insertAt ordered first) others

theorem tokenPath_ne_nil (rest : String) : tokenPath rest ≠ [] := by
  unfold tokenPath
  dsimp only
  split <;> simp_all

theorem valueAt_of_ownAt {own : Value} (leaf : own.isTable = false)
    (owns : ownAt path value = some own) :
    Value.valueAt (if nestsAt path value then path ++ [leafKey] else path) value = some own := by
  unfold ownAt at owns
  unfold nestsAt
  rcases found : Value.valueAt path value with _ | inner
  · simp [found] at owns
  · cases inner with
    | table entries =>
      rw [found] at owns
      simp only [Option.any_some, Value.isTable, if_true, Value.valueAt_append, found,
        Option.bind_some, Value.valueAt_cons_table]
      rw [show Table.get? leafKey entries = some own from owns]
      exact Value.valueAt_nil own
    | _ =>
      rw [found] at owns
      obtain rfl := Option.some.inj owns
      simp [found, Value.isTable]

namespace Tokens

variable {tokens : Tokens} {space rest text : String}

def nestsBelow (tokens : Tokens) (space rest : String) : Bool :=
  (tokens.inNamespace space).any fun entry =>
    decide (tokenPath rest <+: tokenPath entry.1 ∧ tokenPath rest ≠ tokenPath entry.1)

def placeOf (tokens : Tokens) (space rest : String) : List String :=
  if tokens.nestsBelow space rest then tokenPath rest ++ [leafKey] else tokenPath rest

/-- No other token has the path of this one, runs through its default key or has it on its way. -/
structure Alone (tokens : Tokens) (space rest text : String) : Prop where
  unshared : ∀ entry ∈ tokens.inNamespace space,
    tokenPath entry.1 = tokenPath rest → entry.2 = text
  apart : ∀ entry ∈ tokens.inNamespace space, Apart (tokenPath rest) (tokenPath entry.1)

instance (tokens : Tokens) (space rest text : String) : Decidable (tokens.Alone space rest text) :=
  decidable_of_iff
    ((∀ entry ∈ tokens.inNamespace space, tokenPath entry.1 = tokenPath rest → entry.2 = text) ∧
      ∀ entry ∈ tokens.inNamespace space, Apart (tokenPath rest) (tokenPath entry.1))
    ⟨fun ⟨unshared, apart⟩ => ⟨unshared, apart⟩, fun alone => ⟨alone.unshared, alone.apart⟩⟩

def leavesOf (tokens : Tokens) (space : String) : List (List String × Value) :=
  (tokens.inNamespace space).map fun entry => (tokenPath entry.1, .string entry.2)

theorem namespaceTable?_eq (member : (rest, text) ∈ tokens.inNamespace space) :
    tokens.namespaceTable? space = some (filled (tokens.leavesOf space) []) := by
  unfold namespaceTable? filled leavesOf
  rw [List.foldl_map]
  cases found : tokens.inNamespace space with
  | nil => simp [found] at member
  | cons first others => rfl

theorem ordered_namespaceTable? {table : Table Value}
    (found : tokens.namespaceTable? space = some table) : (Value.table table).Ordered := by
  obtain ⟨⟨rest, text⟩, member⟩ : ∃ entry, entry ∈ tokens.inNamespace space := by
    apply List.exists_mem_of_ne_nil
    intro empty
    simp [namespaceTable?, empty] at found
  rw [namespaceTable?_eq member, Option.some.injEq] at found
  rw [← found]
  apply ordered_filled ⟨List.Pairwise.nil, trivial⟩
  exact List.forall_mem_map.2 fun entry inside => trivial

theorem valueAt_namespaceTable? (member : (rest, text) ∈ tokens.inNamespace space)
    (alone : tokens.Alone space rest text) :
    ∃ table, tokens.namespaceTable? space = some table ∧
      Value.valueAt (tokens.placeOf space rest) (.table table) = some (.string text) := by
  refine ⟨_, namespaceTable?_eq member, ?_⟩
  obtain ⟨key, more, isPath⟩ := List.exists_cons_of_ne_nil (tokenPath_ne_nil rest)
  have areLeaves : ∀ entry ∈ tokens.leavesOf space, entry.2.isTable = false ∧ entry.1 ≠ [] ∧
      Apart (tokenPath rest) entry.1 :=
    List.forall_mem_map.2 fun entry inside => ⟨rfl, tokenPath_ne_nil _, alone.apart entry inside⟩
  have unshared : ∀ entry ∈ tokens.leavesOf space, entry.1 = tokenPath rest →
      entry.2 = .string text :=
    List.forall_mem_map.2 fun entry inside same => by rw [alone.unshared entry inside same]
  have clear : Clear (tokenPath rest) (.table []) := by simp [isPath, Clear, Table.get?]
  have below : nestsAt (tokenPath rest) (.table []) = false := by simp [isPath, Table.get?]
  obtain ⟨owns, nests⟩ := placed_filled areLeaves clear
  have own := owns (.string text) unshared (.inr ⟨_, List.mem_map_of_mem member, rfl⟩)
  have isLeaf : (Value.string text).isTable = false := rfl
  have shown := valueAt_of_ownAt isLeaf own
  rw [nests, below, Bool.false_or, leavesOf, List.any_map] at shown
  exact shown

end Tokens

end UtilityCss.Theme
