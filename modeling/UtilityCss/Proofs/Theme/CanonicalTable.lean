import UtilityCss.Proofs.Theme.Names
import UtilityCss.Proofs.Theme.TokenTable
import UtilityCss.Proofs.Value.Paths

set_option autoImplicit false

namespace UtilityCss.Theme

variable {path place before : List String} {table : Table Value} {value : Value}
  {leaves others : List (List String × Value)}

def IsPlace (place : List String) : Prop :=
  place ≠ [] ∧ (leafKey ∈ place → place = [leafKey])

theorem IsPlace.not_through (isPlace : IsPlace place) (nonempty : path ≠ []) :
    ¬ path ++ [leafKey] <+: place := by
  intro through
  have same := isPlace.2 (through.subset (by simp))
  have shorter := through.length_le
  rw [same, List.length_append] at shorter
  exact nonempty (List.length_eq_zero_iff.1 (by simpa using shorter))

theorem IsPlace.apart (first : IsPlace path) (second : IsPlace place) : Apart path place :=
  ⟨second.not_through first.1, first.not_through second.1⟩

theorem isPlace_default : IsPlace [leafKey] := ⟨List.cons_ne_nil _ _, fun _ => rfl⟩

theorem isPlace_of_not_mem (nonempty : path ≠ []) (free : leafKey ∉ path) : IsPlace path :=
  ⟨nonempty, fun member => absurd member free⟩

structure Separate (leaves : List (List String × Value)) : Prop where
  leaf : ∀ entry ∈ leaves, entry.2.isTable = false
  isPlace : ∀ entry ∈ leaves, IsPlace entry.1
  distinct : (leaves.map Prod.fst).Nodup

theorem Separate.unique (separate : Separate leaves) (member : (path, value) ∈ leaves) :
    ∀ entry ∈ leaves, entry.1 = path → entry.2 = value := fun _ inside same =>
  congrArg Prod.snd (List.inj_on_of_nodup_map separate.distinct inside member same)

theorem Separate.perm (separate : Separate leaves) (perm : others.Perm leaves) :
    Separate others where
  leaf entry member := separate.leaf entry (perm.subset member)
  isPlace entry member := separate.isPlace entry (perm.subset member)
  distinct := (perm.map Prod.fst).nodup_iff.2 separate.distinct

theorem clear_empty (nonempty : path ≠ []) : Clear path (.table []) := by
  obtain ⟨key, rest, rfl⟩ := List.exists_cons_of_ne_nil nonempty
  simp [Clear, Table.get?]

theorem valueAt_empty (nonempty : path ≠ []) : Value.valueAt path (.table []) = none := by
  obtain ⟨key, rest, rfl⟩ := List.exists_cons_of_ne_nil nonempty
  rfl

theorem ownAt_of_leaf {whole : Value} (leaf : value.isTable = false)
    (found : Value.valueAt path whole = some value) : ownAt path whole = some value := by
  unfold ownAt
  rw [found]
  cases value with
  | table entries => cases leaf
  | _ => rfl

theorem ownAt_filled_of_absent
    (areLeaves : ∀ entry ∈ leaves, entry.2.isTable = false ∧ entry.1 ≠ [] ∧ Apart path entry.1)
    (clear : Clear path (.table table)) (absent : ∀ entry ∈ leaves, path ≠ entry.1) :
    ownAt path (.table (filled leaves table)) = ownAt path (.table table) := by
  induction leaves generalizing table with
  | nil => rfl
  | cons entry rest ih =>
    obtain ⟨⟨leaf, nonempty, apart⟩, later⟩ := List.forall_mem_cons.1 areLeaves
    obtain ⟨other, others⟩ := List.forall_mem_cons.1 absent
    have placed := placed_insertAt leaf clear apart nonempty
    have same := ih later placed.clear others
    rwa [placed.own, if_neg other] at same

def runsThrough (leaves : List (List String × Value)) (path : List String) : Bool :=
  leaves.any fun entry => decide (path <+: entry.1 ∧ path ≠ entry.1)

theorem runsThrough_iff :
    runsThrough leaves path = true ↔ ∃ entry ∈ leaves, path <+: entry.1 ∧ path ≠ entry.1 := by
  simp [runsThrough]

def placeIn (leaves : List (List String × Value)) (path : List String) : List String :=
  if runsThrough leaves path then path ++ [leafKey] else path

namespace Separate

variable (separate : Separate leaves)

include separate

theorem areLeaves (isPlace : IsPlace path) :
    ∀ entry ∈ leaves, entry.2.isTable = false ∧ entry.1 ≠ [] ∧ Apart path entry.1 :=
  fun entry member => ⟨separate.leaf entry member, (separate.isPlace entry member).1,
    isPlace.apart (separate.isPlace entry member)⟩

theorem ownAt_filled (isPlace : IsPlace path) :
    ownAt path (.table (filled leaves [])) = some value ↔ (path, value) ∈ leaves := by
  have areLeaves := separate.areLeaves isPlace
  have clear := clear_empty isPlace.1
  by_cases present : ∃ own, (path, own) ∈ leaves
  · obtain ⟨own, member⟩ := present
    have shows := (placed_filled areLeaves clear).1 own (separate.unique member)
      (.inr ⟨_, member, rfl⟩)
    rw [shows]
    constructor
    · rintro ⟨⟩
      exact member
    · exact fun also => congrArg some (separate.unique also _ member rfl)
  · have absent : ∀ entry ∈ leaves, path ≠ entry.1 := by
      rintro ⟨other, own⟩ member rfl
      exact present ⟨own, member⟩
    have nothing : ownAt path (.table []) = none := by
      unfold ownAt
      rw [valueAt_empty isPlace.1]
    rw [ownAt_filled_of_absent areLeaves clear absent, nothing]
    exact ⟨nofun, fun member => absurd ⟨value, member⟩ present⟩

theorem nestsAt_filled (isPlace : IsPlace path) :
    nestsAt path (.table (filled leaves [])) = runsThrough leaves path := by
  have below : nestsAt path (.table []) = false := by
    unfold nestsAt
    rw [valueAt_empty isPlace.1]
    rfl
  rw [(placed_filled (separate.areLeaves isPlace) (clear_empty isPlace.1)).2, below, Bool.false_or]
  rfl

theorem not_runsThrough_default (member : leafKey ∈ path) : runsThrough leaves path = false := by
  rw [Bool.eq_false_iff, ne_eq, runsThrough_iff]
  rintro ⟨entry, inside, through, different⟩
  have same := (separate.isPlace entry inside).2 (through.subset member)
  have shorter := through.length_le
  have nonempty := List.length_pos_of_mem member
  rw [same] at shorter
  exact different (through.eq_of_length (by rw [same]; simp at shorter ⊢; omega))

theorem leaf_at_default (free : leafKey ∉ before)
    (found : Value.valueAt (before ++ [leafKey]) (.table (filled leaves [])) = some value) :
    ∃ place, (place, value) ∈ leaves ∧ before ++ [leafKey] = placeIn leaves place := by
  by_cases top : before = []
  · subst top
    have alone := separate.not_runsThrough_default (List.mem_singleton_self leafKey)
    have leaf : value.isTable = false := by
      have nests := separate.nestsAt_filled isPlace_default
      rw [alone] at nests
      simpa only [nestsAt, show Value.valueAt [leafKey] _ = _ from found, Option.any_some] using nests
    have own : ownAt [leafKey] (.table (filled leaves [])) = some value := ownAt_of_leaf leaf found
    exact ⟨[leafKey], (separate.ownAt_filled isPlace_default).1 own, by simp [placeIn, alone]⟩
  · have isPlace := isPlace_of_not_mem top free
    rw [Value.valueAt_append] at found
    obtain ⟨above, isAbove, below⟩ := Option.bind_eq_some_iff.1 found
    cases above with
    | table entries =>
      have own : ownAt before (.table (filled leaves [])) = some value := by
        unfold ownAt
        rw [isAbove]
        exact (Value.valueAt_single leafKey entries).symm.trans below
      have nests : runsThrough leaves before = true := by
        rw [← separate.nestsAt_filled isPlace, nestsAt, isAbove]
        rfl
      exact ⟨before, (separate.ownAt_filled isPlace).1 own, by rw [placeIn, if_pos nests]⟩
    | _ => cases below

theorem leaf_through_default (member : leafKey ∈ path)
    (found : Value.valueAt path (.table (filled leaves [])) = some value) :
    ∃ place, (place, value) ∈ leaves ∧ path = placeIn leaves place := by
  obtain ⟨before, after, rfl, free⟩ := List.eq_append_cons_of_mem member
  rw [List.append_cons, Value.valueAt_append] at found
  obtain ⟨inner, isInner, below⟩ := Option.bind_eq_some_iff.1 found
  obtain ⟨place, inside, isPlace⟩ := separate.leaf_at_default free isInner
  cases after with
  | nil =>
    obtain rfl : inner = value := by simpa using below
    exact ⟨place, inside, isPlace⟩
  | cons key more =>
    rw [Value.valueAt_cons_leaf (separate.leaf _ inside)] at below
    cases below

theorem table_at_iff (nonempty : path ≠ []) :
    (Value.valueAt path (.table (filled leaves []))).any Value.isTable =
      runsThrough leaves path := by
  by_cases member : leafKey ∈ path
  · rw [separate.not_runsThrough_default member]
    cases found : Value.valueAt path (.table (filled leaves [])) with
    | none => rfl
    | some value =>
      obtain ⟨place, inside, -⟩ := separate.leaf_through_default member found
      exact separate.leaf _ inside
  · exact separate.nestsAt_filled (isPlace_of_not_mem nonempty member)

theorem leaf_at_iff (leaf : value.isTable = false) :
    Value.valueAt path (.table (filled leaves [])) = some value ↔
      ∃ place, (place, value) ∈ leaves ∧ path = placeIn leaves place := by
  constructor
  · intro found
    by_cases member : leafKey ∈ path
    · exact separate.leaf_through_default member found
    · have nonempty : path ≠ [] := by
        rintro rfl
        obtain rfl : Value.table (filled leaves []) = value := by simpa using found
        cases leaf
      have own := ownAt_of_leaf leaf found
      have alone : runsThrough leaves path = false := by
        rw [← separate.table_at_iff nonempty, found]
        exact leaf
      have isPlace := isPlace_of_not_mem nonempty member
      exact ⟨path, (separate.ownAt_filled isPlace).1 own, by simp [placeIn, alone]⟩
  · rintro ⟨place, member, rfl⟩
    have isPlace := separate.isPlace _ member
    have shows := valueAt_of_ownAt leaf ((separate.ownAt_filled isPlace).2 member)
    rwa [separate.nestsAt_filled isPlace] at shows

theorem filled_perm (areOrdered : ∀ entry ∈ leaves, entry.2.Ordered) (perm : others.Perm leaves) :
    filled others [] = filled leaves [] := by
  have also := separate.perm perm
  have empty : (Value.table []).Ordered := ⟨List.Pairwise.nil, trivial⟩
  refine Value.table.inj (Value.ext_of_tops
    (ordered_filled empty fun entry member => areOrdered entry (perm.subset member))
    (ordered_filled empty areOrdered) fun path => ?_)
  have runs (path : List String) : runsThrough others path = runsThrough leaves path := by
    rw [Bool.eq_iff_iff, runsThrough_iff, runsThrough_iff]
    simp only [perm.mem_iff]
  apply Value.map_top_congr
  · by_cases nonempty : path = []
    · simp [nonempty, Value.isTable]
    · rw [also.table_at_iff nonempty, separate.table_at_iff nonempty, runs]
  · intro leaf isLeaf
    simp only [also.leaf_at_iff isLeaf, separate.leaf_at_iff isLeaf, placeIn, runs, perm.mem_iff]

end Separate

namespace Tokens

variable {tokens other : Tokens} {space rest text : String}

/-- The tokens of a namespace have paths of their own, and only the bare namespace has the default
key in its path. -/
structure KeepApart (tokens : Tokens) (space : String) : Prop where
  distinct : ((tokens.inNamespace space).map fun entry => tokenPath entry.1).Nodup
  bare : ∀ entry ∈ tokens.inNamespace space, leafKey ∈ tokenPath entry.1 →
    tokenPath entry.1 = [leafKey]

theorem keepApart_iff : ((tokens.inNamespace space).map fun entry => tokenPath entry.1).Nodup ∧
    (∀ entry ∈ tokens.inNamespace space, leafKey ∈ tokenPath entry.1 →
      tokenPath entry.1 = [leafKey]) ↔ tokens.KeepApart space := by
  constructor
  · rintro ⟨distinct, bare⟩
    exact ⟨distinct, bare⟩
  · exact fun apart => ⟨apart.distinct, apart.bare⟩

instance (tokens : Tokens) (space : String) : Decidable (tokens.KeepApart space) :=
  decidable_of_iff _ keepApart_iff

def valueAt? (tokens : Tokens) (space : String) (path : List String) : Option Value :=
  (tokens.namespaceTable? space).bind fun table => Value.valueAt path (.table table)

theorem KeepApart.separate (apart : tokens.KeepApart space) :
    Separate (tokens.leavesOf space) where
  leaf entry member := by
    obtain ⟨token, -, rfl⟩ := List.mem_map.1 member
    rfl
  isPlace entry member := by
    obtain ⟨token, inside, rfl⟩ := List.mem_map.1 member
    exact ⟨tokenPath_ne_nil token.1, apart.bare token inside⟩
  distinct := by
    rw [leavesOf, List.map_map]
    exact apart.distinct

theorem mem_leavesOf {path : List String} {value : Value} :
    (path, value) ∈ tokens.leavesOf space ↔
      ∃ rest text, (rest, text) ∈ tokens.inNamespace space ∧ path = tokenPath rest ∧
        value = .string text := by
  simp [leavesOf, eq_comm]

theorem placeOf_eq (tokens : Tokens) (space rest : String) :
    tokens.placeOf space rest = placeIn (tokens.leavesOf space) (tokenPath rest) := by
  simp only [placeOf, placeIn, nestsBelow, runsThrough, leavesOf, List.any_map]
  rfl

theorem valueAt?_of_mem (member : (rest, text) ∈ tokens.inNamespace space) (path : List String) :
    tokens.valueAt? space path =
      Value.valueAt path (.table (filled (tokens.leavesOf space) [])) := by
  rw [valueAt?, namespaceTable?_eq member, Option.bind_some]

theorem exists_of_valueAt? {path : List String} {value : Value}
    (found : tokens.valueAt? space path = some value) :
    ∃ rest text, (rest, text) ∈ tokens.inNamespace space := by
  obtain ⟨table, isTable, -⟩ := Option.bind_eq_some_iff.1 found
  obtain ⟨⟨rest, text⟩, member⟩ := List.exists_mem_of_ne_nil (tokens.inNamespace space) (by
    rw [ne_eq, ← namespaceTable?_eq_none_iff, isTable]
    nofun)
  exact ⟨rest, text, member⟩

theorem runsThrough_leavesOf {path : List String} :
    runsThrough (tokens.leavesOf space) path = true ↔
      ∃ entry ∈ tokens.inNamespace space,
        path <+: tokenPath entry.1 ∧ path ≠ tokenPath entry.1 := by
  simp [runsThrough, leavesOf]

theorem KeepApart.namespaceTable?_perm (apart : tokens.KeepApart space)
    (perm : (other.inNamespace space).Perm (tokens.inNamespace space)) :
    other.namespaceTable? space = tokens.namespaceTable? space := by
  by_cases empty : tokens.inNamespace space = []
  · rw [namespaceTable?_eq_none_iff.2 empty, namespaceTable?_eq_none_iff]
    exact List.Perm.eq_nil (empty ▸ perm)
  · obtain ⟨⟨rest, text⟩, member⟩ := List.exists_mem_of_ne_nil _ empty
    have ordered : ∀ entry ∈ tokens.leavesOf space, entry.2.Ordered := by
      rintro ⟨path, value⟩ inside
      obtain ⟨rest, text, -, -, rfl⟩ := mem_leavesOf.1 inside
      trivial
    have leaves : (other.leavesOf space).Perm (tokens.leavesOf space) := perm.map _
    rw [namespaceTable?_eq member, namespaceTable?_eq (perm.mem_iff.2 member),
      apart.separate.filled_perm ordered leaves]

/-- The table of a namespace whose tokens keep apart: its leaves are the tokens, each at its path
or, where other paths go on, under the default key there; its tables are where paths go on. So the
same tokens make the same table in every order. -/
theorem namespaceTable?_canonical (apart : tokens.KeepApart space) :
    (∀ path leaf, leaf.isTable = false →
      (tokens.valueAt? space path = some leaf ↔
        ∃ rest text, (rest, text) ∈ tokens.inNamespace space ∧ leaf = .string text ∧
          path = tokens.placeOf space rest)) ∧
    (∀ path, (tokens.valueAt? space path).any Value.isTable = true ↔
      ∃ entry ∈ tokens.inNamespace space,
        path <+: tokenPath entry.1 ∧ path ≠ tokenPath entry.1) ∧
    ∀ other : Tokens, (other.inNamespace space).Perm (tokens.inNamespace space) →
      other.namespaceTable? space = tokens.namespaceTable? space := by
  have separate := apart.separate
  refine ⟨fun path leaf isLeaf => ⟨fun found => ?_, ?_⟩, fun path => ⟨fun isTable => ?_, ?_⟩,
    fun other => apart.namespaceTable?_perm⟩
  · obtain ⟨first, held, member⟩ := exists_of_valueAt? found
    rw [valueAt?_of_mem member, separate.leaf_at_iff isLeaf] at found
    obtain ⟨place, inside, rfl⟩ := found
    obtain ⟨rest, text, isToken, rfl, rfl⟩ := mem_leavesOf.1 inside
    exact ⟨rest, text, isToken, rfl, (placeOf_eq tokens space rest).symm⟩
  · rintro ⟨rest, text, member, rfl, rfl⟩
    rw [valueAt?_of_mem member, separate.leaf_at_iff isLeaf, placeOf_eq]
    exact ⟨_, mem_leavesOf.2 ⟨rest, text, member, rfl, rfl⟩, rfl⟩
  · obtain ⟨value, found, -⟩ := (Option.any_eq_true _ _).1 isTable
    obtain ⟨rest, text, member⟩ := exists_of_valueAt? found
    by_cases top : path = []
    · exact ⟨_, member, top ▸ List.nil_prefix, top ▸ (tokenPath_ne_nil rest).symm⟩
    · rwa [valueAt?_of_mem member, separate.table_at_iff top, runsThrough_leavesOf] at isTable
  · rintro ⟨entry, member, below⟩
    rw [valueAt?_of_mem member]
    by_cases top : path = []
    · simp [top, Value.isTable]
    · rw [separate.table_at_iff top, runsThrough_leavesOf]
      exact ⟨entry, member, below⟩

def levels : Tokens :=
  ⟨[("--color-red-500", "crimson"), ("--font-sans", "Inter"), ("--color-red", "red"),
    ("--color", "black"), ("--color-red-500-faint", "pink")]⟩

theorem levels_canonical :
    levels.KeepApart "color" ∧
      levels.valueAt? "color" ["red", "DEFAULT"] = some (.string "red") ∧
      levels.valueAt? "color" ["red", "500", "DEFAULT"] = some (.string "crimson") ∧
      levels.valueAt? "color" ["DEFAULT"] = some (.string "black") ∧
      (levels.valueAt? "color" ["red", "500"]).any Value.isTable = true ∧
      (⟨levels.entries.reverse⟩ : Tokens).namespaceTable? "color" =
        levels.namespaceTable? "color" := by
  have apart : levels.KeepApart "color" := by decide +kernel
  obtain ⟨leaves, tables, same⟩ := namespaceTable?_canonical apart
  refine ⟨apart, (leaves _ _ rfl).2 ⟨"red", "red", ?_⟩,
    (leaves _ _ rfl).2 ⟨"red-500", "crimson", ?_⟩, (leaves _ _ rfl).2 ⟨"", "black", ?_⟩,
    (tables _).2 ⟨("red-500-faint", "pink"), ?_⟩, same _ ?_⟩
  · exact ⟨by decide +kernel, rfl, by decide +kernel⟩
  · exact ⟨by decide +kernel, rfl, by decide +kernel⟩
  · exact ⟨by decide +kernel, rfl, by decide +kernel⟩
  · decide +kernel
  · decide +kernel

end Tokens

end UtilityCss.Theme
