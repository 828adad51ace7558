import UtilityCss.Config.Setting
import UtilityCss.Proofs.Result
import UtilityCss.Proofs.Text.Cut
import UtilityCss.Proofs.Value.Table

set_option autoImplicit false

namespace UtilityCss.Config.Setting

/-- The keys of each table in the setting stand in increasing order. -/
inductive Ordered : Setting → Prop
  | literal (value : Value) : Ordered (.literal value)
  | deferred (value : Deferred) : Ordered (.deferred value)
  | table {entries : Table Setting} (keys : Table.Ordered entries)
      (inner : ∀ entry ∈ entries, Ordered entry.2) : Ordered (.table entries)

/-- The fault where a setting that is no table bars the way: `walked` are the keys that led to it,
and the rest those behind the next one. -/
def barred (leaf : Setting) (walked rest : List String) : PathFault :=
  if rest = [] then .endsIn leaf.typeName walked else .passesThrough leaf.typeName walked

def inside (key : String) (entries : Table Setting) : Setting :=
  (Table.get? key entries).getD noSettings

/-- What becomes of a setting that changes while the keys are walked: a missing table is made on the
way down, and all changes stay, whether the walk gets to its end or not. -/
def putInPlace (walked : List String) :
    List String → Setting → Setting → Setting × Option PathFault
  | [], _, setting => (setting, some .empty)
  | [key], value, .table entries => (.table (Table.insert key value entries), none)
  | [_], _, setting => (setting, some (.endsIn setting.typeName walked))
  | key :: rest, value, .table entries =>
    let (inner, fault) := putInPlace (walked ++ [key]) rest value (inside key entries)
    (.table (Table.insert key inner entries), fault)
  | _ :: _, _, setting => (setting, some (.passesThrough setting.typeName walked))

def StoppedBy (walked keys : List String) (setting : Setting) (fault : PathFault) : Prop :=
  ∃ way key rest leaf, keys = way ++ key :: rest ∧ settingAt way setting = some leaf ∧
    leaf.entries? = none ∧ fault = leaf.barred (walked ++ way) rest

structure Placed (keys : List String) (value before after : Setting) : Prop where
  reached : settingAt keys after = some value
  opened : ∀ way key rest, keys = way ++ key :: rest →
    ∃ entries, settingAt way after = some (.table entries)
  kept : ∀ other, ¬ other <+: keys → ¬ keys <+: other →
    settingAt other after = settingAt other before

variable {setting value before after inner leaf : Setting} {key : String}
  {walked keys other : List String} {entries : Table Setting} {fault : PathFault}

theorem pathKeys_eq_nil_iff (path : String) : pathKeys path = [] ↔ ∀ c ∈ path.toList, c = '.' := by
  rw [← Text.forall_split_nil_iff, pathKeys]
  simp

theorem settingAt_cons_table (key : String) (rest : List String) (entries : Table Setting) :
    settingAt (key :: rest) (.table entries) = (Table.get? key entries).bind (settingAt rest) := rfl

theorem settingAt_cons_leaf (isLeaf : leaf.entries? = none) (key : String) (rest : List String) :
    settingAt (key :: rest) leaf = none := by
  simp [settingAt, get?, isLeaf]

theorem settingAt_inside (nonempty : keys ≠ []) :
    settingAt keys (inside key entries) = settingAt (key :: keys) (.table entries) := by
  obtain ⟨next, rest, rfl⟩ := List.exists_cons_of_ne_nil nonempty
  rw [settingAt_cons_table, inside]
  cases Table.get? key entries <;> rfl

theorem putAt_table (nonempty : keys ≠ []) :
    putAt walked (key :: keys) value (.table entries) =
      (putAt (walked ++ [key]) keys value (inside key entries)).map fun inner =>
        .table (Table.insert key inner entries) := by
  obtain ⟨next, rest, rfl⟩ := List.exists_cons_of_ne_nil nonempty
  rfl

theorem putAt_leaf (isLeaf : leaf.entries? = none) :
    putAt walked (key :: keys) value leaf = .error (leaf.barred walked keys) := by
  cases leaf with
  | table entries => cases isLeaf
  | _ => cases keys <;> rfl

theorem putInPlace_table (nonempty : keys ≠ []) :
    putInPlace walked (key :: keys) value (.table entries) =
      let (inner, fault) := putInPlace (walked ++ [key]) keys value (inside key entries)
      (.table (Table.insert key inner entries), fault) := by
  obtain ⟨next, rest, rfl⟩ := List.exists_cons_of_ne_nil nonempty
  rfl

theorem putInPlace_leaf (isLeaf : leaf.entries? = none) :
    putInPlace walked (key :: keys) value leaf = (leaf, some (leaf.barred walked keys)) := by
  cases leaf with
  | table entries => cases isLeaf
  | _ => cases keys <;> rfl

theorem entries?_eq_some : setting.entries? = some entries ↔ setting = .table entries := by
  cases setting <;> simp [entries?]

theorem stoppedBy_leaf (isLeaf : leaf.entries? = none) :
    StoppedBy walked (key :: keys) leaf fault ↔ fault = leaf.barred walked keys := by
  constructor
  · rintro ⟨way, next, rest, other, split, found, -, rfl⟩
    cases way with
    | nil =>
      obtain ⟨rfl, rfl⟩ := List.cons.inj split
      obtain rfl : leaf = other := Option.some.inj found
      rw [List.append_nil]
    | cons first way =>
      rw [settingAt_cons_leaf isLeaf] at found
      cases found
  · rintro rfl
    exact ⟨[], key, keys, leaf, rfl, rfl, isLeaf, by rw [List.append_nil]⟩

-- A table that is made on the way stops nothing.
theorem settingAt_inside_leaf (isLeaf : leaf.entries? = none) :
    settingAt keys (inside key entries) = some leaf ↔
      settingAt (key :: keys) (.table entries) = some leaf := by
  cases keys with
  | cons next rest => rw [settingAt_inside (List.cons_ne_nil next rest)]
  | nil =>
    rw [settingAt_cons_table, inside]
    cases Table.get? key entries with
    | some held => rfl
    | none =>
      constructor
      · rintro ⟨⟩
        cases isLeaf
      · rintro ⟨⟩

theorem stoppedBy_table : StoppedBy walked (key :: keys) (.table entries) fault ↔
    StoppedBy (walked ++ [key]) keys (inside key entries) fault := by
  constructor
  · rintro ⟨way, next, rest, leaf, split, found, isLeaf, rfl⟩
    cases way with
    | nil =>
      obtain rfl : table entries = leaf := Option.some.inj found
      cases isLeaf
    | cons first way =>
      obtain ⟨rfl, rfl⟩ := List.cons.inj split
      exact ⟨way, next, rest, leaf, rfl, (settingAt_inside_leaf isLeaf).2 found, isLeaf, by simp⟩
  · rintro ⟨way, next, rest, leaf, rfl, found, isLeaf, rfl⟩
    exact ⟨key :: way, next, rest, leaf, rfl, (settingAt_inside_leaf isLeaf).1 found, isLeaf,
      by simp⟩

theorem putAt_eq_error_iff : putAt walked keys value setting = .error fault ↔
    (keys = [] ∧ fault = .empty) ∨ StoppedBy walked keys setting fault := by
  induction keys generalizing walked setting with
  | nil => simp [putAt, StoppedBy, eq_comm]
  | cons key keys ih =>
    cases isTable : setting.entries? with
    | none => simp [putAt_leaf isTable, stoppedBy_leaf isTable, eq_comm]
    | some entries =>
      obtain rfl := entries?_eq_some.1 isTable
      rw [stoppedBy_table]
      by_cases last : keys = []
      · simp [last, putAt, StoppedBy]
      · simp [putAt_table last, map_eq_error, ih, last]

theorem placed_nil : Placed [] value before value where
  reached := rfl
  opened way key rest split := by simp at split
  kept other _ apart := absurd List.nil_prefix apart

theorem placed_table (placed : Placed keys value (inside key entries) inner) :
    Placed (key :: keys) value (.table entries) (.table (Table.insert key inner entries)) where
  reached := by
    rw [settingAt_cons_table, Table.get?_insert_self]
    exact placed.reached
  opened way next rest split := by
    cases way with
    | nil => exact ⟨_, rfl⟩
    | cons first way =>
      obtain ⟨rfl, rfl⟩ := List.cons.inj split
      rw [settingAt_cons_table, Table.get?_insert_self]
      exact placed.opened way next rest rfl
  kept other outside beyond := by
    cases other with
    | nil => exact absurd List.nil_prefix outside
    | cons first other =>
      by_cases same : first = key
      · subst same
        rw [List.prefix_cons_inj] at outside beyond
        have nonempty : other ≠ [] := by
          rintro rfl
          exact outside List.nil_prefix
        rw [settingAt_cons_table, Table.get?_insert_self, ← settingAt_inside nonempty]
        exact placed.kept other outside beyond
      · rw [settingAt_cons_table, settingAt_cons_table, Table.get?_insert_of_ne inner entries same]

theorem putAt_induction {motive : List String → Setting → Setting → Prop}
    (last : ∀ before, motive [] before value)
    (step : ∀ key keys entries inner, motive keys (inside key entries) inner →
      motive (key :: keys) (.table entries) (.table (Table.insert key inner entries)))
    (put : putAt walked keys value setting = .ok after) : motive keys setting after := by
  induction keys generalizing walked setting after with
  | nil => cases put
  | cons key keys ih =>
    cases isTable : setting.entries? with
    | none =>
      rw [putAt_leaf isTable] at put
      cases put
    | some entries =>
      obtain rfl := entries?_eq_some.1 isTable
      by_cases isLast : keys = []
      · subst isLast
        obtain rfl : table (Table.insert key value entries) = after := Except.ok.inj put
        exact step key [] entries value (last _)
      · rw [putAt_table isLast] at put
        obtain ⟨inner, result, rfl⟩ := map_eq_ok.1 put
        exact step key keys entries inner (ih result)

theorem placed_of_putAt (put : putAt walked keys value setting = .ok after) :
    Placed keys value setting after :=
  putAt_induction (motive := fun keys => Placed keys value) (fun _ => placed_nil)
    (fun _ _ _ _ => placed_table) put

theorem ordered_inside (ordered : (table entries).Ordered) (key : String) :
    (inside key entries).Ordered := by
  cases ordered with
  | table _ inner =>
    unfold inside
    cases found : Table.get? key entries with
    | some held => exact inner _ (Table.mem_of_get? found)
    | none => exact .table List.Pairwise.nil (by simp)

theorem ordered_of_putAt (put : putAt walked keys value setting = .ok after)
    (ordered : setting.Ordered) (orderedValue : value.Ordered) : after.Ordered := by
  revert ordered
  refine putAt_induction (motive := fun _ before after => before.Ordered → after.Ordered)
    (fun _ _ => orderedValue) (fun key keys entries inner ih ordered => ?_) put
  have ownInner := ih (ordered_inside ordered key)
  cases ordered with
  | table own others =>
    refine .table own.insert ?_
    rintro ⟨other, held⟩ member
    obtain ⟨-, rfl⟩ | earlier := Table.mem_insert member
    · exact ownInner
    · exact others _ earlier

theorem settingAt_append (way rest : List String) (setting : Setting) :
    settingAt (way ++ rest) setting = (settingAt way setting).bind (settingAt rest) := by
  induction way generalizing setting with
  | nil => rfl
  | cons key way ih =>
    rw [List.cons_append, settingAt, settingAt, Option.bind_assoc]
    exact congrArg _ (funext ih)

-- Paths aside hold what they held, and those short of the end lead through tables.
theorem Placed.added (placed : Placed keys value before after)
    (found : settingAt other after = some inner) (absent : settingAt other before = none) :
    (∃ rest, other = keys ++ rest ∧ settingAt rest value = some inner) ∨
      ∃ key rest entries, keys = other ++ key :: rest ∧ inner = .table entries := by
  by_cases beyond : keys <+: other
  · obtain ⟨rest, rfl⟩ := beyond
    rw [settingAt_append, placed.reached] at found
    exact .inl ⟨rest, rfl, found⟩
  · by_cases short : other <+: keys
    · obtain ⟨_ | ⟨key, rest⟩, rfl⟩ := short
      · simp at beyond
      · obtain ⟨entries, isTable⟩ := placed.opened other key rest rfl
        exact .inr ⟨key, rest, entries, rfl, Option.some.inj (found.symm.trans isTable)⟩
    · rw [placed.kept other short beyond, absent] at found
      cases found

-- Where the way is barred further down, there was no table to make.
theorem insert_inside (ordered : (table entries).Ordered)
    (stopped : StoppedBy walked keys (inside key entries) fault) :
    Table.insert key (inside key entries) entries = entries := by
  cases found : Table.get? key entries with
  | some held =>
    cases ordered with
    | table keys inner => rw [inside, found, Option.getD_some, keys.insert_of_get? found]
  | none =>
    obtain ⟨way, next, rest, leaf, rfl, there, isLeaf, rfl⟩ := stopped
    rw [settingAt_inside_leaf isLeaf, settingAt_cons_table, found] at there
    cases there

theorem putInPlace_eq (ordered : setting.Ordered) : putInPlace walked keys value setting =
    match putAt walked keys value setting with
    | .ok after => (after, none)
    | .error fault => (setting, some fault) := by
  induction keys generalizing walked setting with
  | nil => rfl
  | cons key keys ih =>
    cases isTable : setting.entries? with
    | none => rw [putInPlace_leaf isTable, putAt_leaf isTable]
    | some entries =>
      obtain rfl := entries?_eq_some.1 isTable
      by_cases last : keys = []
      · subst last
        rfl
      · rw [putInPlace_table last, putAt_table last, ih (ordered_inside ordered key)]
        cases result : putAt (walked ++ [key]) keys value (inside key entries) with
        | ok inner => rfl
        | error fault =>
          obtain ⟨nothing, -⟩ | stopped := putAt_eq_error_iff.1 result
          · exact absurd nothing last
          · simp [Except.map, insert_inside ordered stopped]

/-- Putting a setting at a path fails where the path has no keys or the way is barred short of the
last one, and then nothing has changed. Otherwise the setting is found at the path, every path aside
holds what it held, and new are only the parts of the setting and tables that lead to it. -/
theorem set_atomic_and_local (setting : Setting) (ordered : setting.Ordered) (path : String)
    (value : Setting) :
    (∀ fault, setting.set path value = .error fault ↔
      (∀ c ∈ path.toList, c = '.') ∧ fault = .empty ∨
      ∃ way key rest leaf, pathKeys path = way ++ key :: rest ∧
        settingAt way setting = some leaf ∧ leaf.entries? = none ∧ fault = leaf.barred way rest) ∧
    (∀ fault, setting.set path value = .error fault →
      putInPlace [] (pathKeys path) value setting = (setting, some fault)) ∧
    ∀ after, setting.set path value = .ok after →
      putInPlace [] (pathKeys path) value setting = (after, none) ∧
      settingAt (pathKeys path) after = some value ∧
      (∀ other, ¬ other <+: pathKeys path → ¬ pathKeys path <+: other →
        settingAt other after = settingAt other setting) ∧
      (∀ other inner, settingAt other after = some inner → settingAt other setting = none →
        (∃ rest, other = pathKeys path ++ rest ∧ settingAt rest value = some inner) ∨
        ∃ key rest entries, pathKeys path = other ++ key :: rest ∧ inner = .table entries) ∧
      (value.Ordered → after.Ordered) := by
  refine ⟨fun fault => ?_, fun fault failed => ?_, fun after put => ?_⟩
  · rw [set, putAt_eq_error_iff, pathKeys_eq_nil_iff]
    rfl
  · rw [putInPlace_eq ordered, ← set, failed]
  · have placed : Placed (pathKeys path) value setting after := placed_of_putAt put
    refine ⟨?_, placed.reached, placed.kept, fun _ _ => placed.added, ordered_of_putAt put ordered⟩
    rw [putInPlace_eq ordered, ← set, put]

def palette : Setting := .table [("colors", noSettings), ("size", ofText "1px")]

theorem set_atomic_and_local_palette :
    palette.Ordered ∧
    putInPlace [] (pathKeys "size.large.wide") noSettings palette =
      (palette, some (.passesThrough "string" ["size"])) ∧
    ∃ after, palette.set ".colors..blue.500" (ofText "#00f") = .ok after ∧
      settingAt ["colors", "blue", "500"] after = some (ofText "#00f") ∧
      settingAt ["size"] after = settingAt ["size"] palette := by
  have ordered : palette.Ordered := by
    refine .table (by decide +kernel) ?_
    simp only [List.forall_mem_cons, List.not_mem_nil, false_implies, implies_true, and_true]
    exact ⟨.table List.Pairwise.nil (by simp), .literal _⟩
  have barred : palette.set "size.large.wide" noSettings =
      .error (.passesThrough "string" ["size"]) := by
    simp [set, pathKeys, Text.split, putAt, palette, Table.get?, ofText, typeName, Value.typeName,
      Except.map]
  have keys : pathKeys ".colors..blue.500" = ["colors", "blue", "500"] := by
    simp [pathKeys, Text.split]
  have free : palette.set ".colors..blue.500" (ofText "#00f") =
      .ok (.table [("colors", .table [("blue", .table [("500", ofText "#00f")])]),
        ("size", ofText "1px")]) := by
    simp [set, pathKeys, Text.split, putAt, palette, Table.get?, Table.insert, noSettings,
      Except.map]
  have placed := (set_atomic_and_local palette ordered _ _).2.2 _ free
  rw [keys] at placed
  refine ⟨ordered, (set_atomic_and_local palette ordered _ _).2.1 _ barred, _, free, placed.2.1, ?_⟩
  exact placed.2.2.1 ["size"] (by simp) (by simp)

end UtilityCss.Config.Setting
