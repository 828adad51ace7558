import UtilityCss.Proofs.Config.Removal
import UtilityCss.Proofs.Theme.Outcome
import UtilityCss.Proofs.Theme.TokenTable
import UtilityCss.Proofs.Theme.Upkeep

set_option autoImplicit false

namespace UtilityCss.Theme

open UtilityCss.Config

/-- The theme key of the namespace leads to another namespace. -/
def isHidden (space : String) : Bool := namespaceFor (keyOf space) ≠ space

theorem isHidden_eq_false {space : String} :
    isHidden space = false ↔ namespaceFor (keyOf space) = space := by
  simp [isHidden]

theorem isHidden_namespaceFor (segment : String) : isHidden (namespaceFor segment) = false := by
  rw [isHidden_eq_false]
  cases aliased : isAliased segment with
  | true => rw [namespaceFor_of_isAliased aliased, namespaceFor_keyOf aliased]
  | false => rw [keyOf_namespaceFor aliased]

namespace Tokens

variable {tokens : Tokens} {space : String}

def visible (tokens : Tokens) : Tokens :=
  ⟨tokens.entries.filter fun entry => (namespaceOf? entry.1).all fun space => !isHidden space⟩

theorem inNamespace_visible (read : isHidden space = false) :
    tokens.visible.inNamespace space = tokens.inNamespace space := by
  unfold inNamespace visible
  rw [List.filterMap_filter]
  apply List.filterMap_congr
  rintro ⟨name, value⟩ -
  rcases split : splitName? name with _ | ⟨found, rest⟩
  · simp [split]
  · by_cases same : found = space
    · simp [namespaceOf?, split, same, read]
    · simp [namespaceOf?, split, same]

theorem namespaceTable?_visible (read : isHidden space = false) :
    tokens.visible.namespaceTable? space = tokens.namespaceTable? space := by
  unfold namespaceTable?
  rw [inNamespace_visible read]

end Tokens

namespace Basis

variable {r other : Basis} {segment key : String}

structure SameTables (r other : Basis) : Prop where
  sections : r.sections = other.sections
  tables : ∀ segment, r.tokenTable? segment = other.tokenTable? segment

theorem SameTables.configKeys (same : r.SameTables other) : r.configKeys = other.configKeys := by
  unfold Basis.configKeys
  rw [same.sections]

theorem SameTables.segmentValue (same : r.SameTables other) (ofKey : String → Step (Option Value)) :
    r.segmentValue ofKey = other.segmentValue ofKey := by
  funext segment memory
  simp only [Basis.segmentValue, configKey?, same.configKeys, same.tables]

theorem SameTables.valueOfKey (same : r.SameTables other) (depth : Nat) :
    r.valueOfKey depth = other.valueOfKey depth := by
  induction depth with
  | zero =>
    funext key memory
    simp only [Basis.valueOfKey]
  | succ depth ih =>
    have asked : r.valueAtPath (r.valueOfKey depth) = other.valueAtPath (other.valueOfKey depth) := by
      funext path memory
      simp only [valueAtPath, ih, same.segmentValue]
    funext key memory
    simp only [Basis.valueOfKey, asked, same.sections]

theorem SameTables.find (same : r.SameTables other) : r.find = other.find := by
  funext segment memory
  simp only [Basis.find, same.segmentValue, depth, same.configKeys, same.valueOfKey]

theorem SameTables.collect (same : r.SameTables other) (keys : List String) :
    r.collect keys = other.collect keys := by
  induction keys with
  | nil => rfl
  | cons key rest ih =>
    funext memory
    simp only [Basis.collect, same.find, ih]

-- Keys at which nothing is found may be left out.
theorem collect_filter {keep : String → Bool} {keys : List String}
    (nothing : ∀ key ∈ keys, keep key = false → ∀ m, r.find key m = (.ok none, m)) :
    r.collect (keys.filter keep) = r.collect keys := by
  induction keys with
  | nil => rfl
  | cons key rest ih =>
    obtain ⟨first, others⟩ := List.forall_mem_cons.1 nothing
    funext memory
    cases kept : keep key with
    | true => simp only [List.filter_cons, kept, if_true, collect, ih others]
    | false =>
      rw [List.filter_cons_of_neg (by simp [kept]), ih others]
      simp only [collect, first kept]
      rcases r.collect rest memory with ⟨error | values, after⟩ <;> rfl

def visible (r : Basis) : Basis := ⟨r.tokens.visible, r.sections⟩

theorem sameTables_visible (r : Basis) : r.visible.SameTables r where
  sections := rfl
  tables segment := by
    have read := isHidden_namespaceFor segment
    simp only [tokenTable?, visible, Tokens.namespaceTable?_visible read]

theorem mem_keys_of_visible (member : key ∈ r.visible.keys) : key ∈ r.keys := by
  rw [keys, Ordered.mem_ofList, List.mem_append, List.mem_map] at member ⊢
  refine member.imp (fun configured => configured) ?_
  rintro ⟨space, inside, isKey⟩
  refine ⟨space, ?_, isKey⟩
  rw [Tokens.namespaces, Tokens.mem_distinct, List.mem_filterMap] at inside ⊢
  obtain ⟨entry, isVisible, isSpace⟩ := inside
  exact ⟨entry, List.mem_of_mem_filter isVisible, isSpace⟩

theorem keys_visible (r : Basis) : r.visible.keys = r.keys.filter (· ∈ r.visible.keys) := by
  have sorted : Ordered.Increasing (r.keys.filter (· ∈ r.visible.keys)) :=
    (Ordered.increasing_ofList _).filter _
  apply (Ordered.increasing_ofList _).eq_of_mem_iff sorted
  intro key
  rw [List.mem_filter, decide_eq_true_eq]
  exact ⟨fun member => ⟨mem_keys_of_visible member, member⟩, And.right⟩

theorem find_of_hidden (member : key ∈ r.keys) (hidden : key ∉ r.visible.keys) (m : Memory) :
    r.find key m = (.ok none, m) := by
  obtain configured | ⟨unconfigured, plain⟩ := mem_keys member
  · exact absurd (mem_keys_of_mem_configKeys (r := r.visible) configured) hidden
  · have read : r.configKey? key m = none := by simp [configKey?, unconfigured, plain]
    have empty : r.tokenTable? key = none := by
      rw [← (sameTables_visible r).tables, ← Option.not_isSome_iff_eq_none]
      exact fun tokens => hidden (mem_keys_of_tokenTable? plain tokens)
    simp only [find, segmentValue, read, empty]

theorem collect_visible (r : Basis) : r.visible.collect r.visible.keys = r.collect r.keys := by
  rw [(sameTables_visible r).collect, keys_visible]
  apply collect_filter
  intro key member hidden
  exact find_of_hidden member (by simpa using hidden)

end Basis

theorem ofTokens_visible (tokens : Tokens) (stack : Stack) :
    ofTokens tokens.visible stack = ofTokens tokens stack := by
  unfold ofTokens Basis.ofLayers
  cases Basis.sectionsOf 0 stack with
  | error error => rfl
  | ok sections =>
    have same := Basis.collect_visible ⟨tokens, sections⟩
    exact congrArg (fun result => result.1.map Theme.mk) (congrFun same Memory.empty)

section Shown

variable {r : Basis} {last : Memory} {space rest text : String}

theorem valueAt_tokenTable? (read : isHidden space = false)
    (member : (rest, text) ∈ r.tokens.inNamespace space)
    (alone : r.tokens.Alone space rest text) :
    ∃ table : Value, r.tokenTable? (keyOf space) = some table ∧ table.Ordered ∧
      table.valueAt (r.tokens.placeOf space rest) = some (.string text) := by
  obtain ⟨table, isTable, found⟩ := Tokens.valueAt_namespaceTable? member alone
  refine ⟨.table table, ?_, Tokens.ordered_namespaceTable? isTable, found⟩
  rw [Basis.tokenTable?, isHidden_eq_false.1 read, isTable]
  rfl

theorem shown_or_covered {table : Value} {path : List String} {found : Value}
    (accounted : r.Accounted last) (tokens : r.tokenTable? (keyOf space) = some table)
    (ordered : table.Ordered) (shows : table.valueAt path = some found) :
    (r.shownSegment last.settled (keyOf space)).bind (Value.valueAt path) = some found ∨
      ∃ own, r.Contributes last (keyOf space) own ∧ own.Covers path := by
  rw [Basis.shownSegment, tokens]
  rcases layered : (r.layerKey? (keyOf space)).bind fun key => (Table.get? key last.settled).join
    with _ | total
  · exact .inl shows
  · by_cases covers : total.Covers path
    · obtain ⟨key, read, settled⟩ := Option.bind_eq_some_iff.1 layered
      have same : keyOf space = key := Basis.eq_of_layerKey? (isAliased_keyOf space) read
      rw [Option.join_eq_some_iff, ← same, Memory.get?_settled accounted.valid] at settled
      exact .inr ((accounted.computes _ _ settled).contributes covers)
    · refine .inl ?_
      rw [Value.overlay?, Option.bind_some, Value.valueAt_merge ordered covers, shows]

end Shown

/-- A token of a namespace that is read stands in the theme under the key of its namespace, unless
the layers put something in its place. The other tokens have no influence on the theme. -/
theorem tokens_reach_theme {tokens : Tokens} {stack : Stack} {theme : Theme}
    (resolved : ofTokens tokens stack = .ok theme) :
    ∃ r last, Basis.ofLayers tokens stack = .ok r ∧
      r.collect r.keys Memory.empty = (.ok theme.entries, last) ∧
      (∀ name text space rest, (name, text) ∈ tokens.entries →
        splitName? name = some (space, rest) → isHidden space = false →
        tokens.Alone space rest text →
        (Table.get? (keyOf space) theme.entries).bind
            (Value.valueAt (tokens.placeOf space rest)) = some (.string text) ∨
          ∃ own, r.Contributes last (keyOf space) own ∧
            own.Covers (tokens.placeOf space rest)) ∧
      ofTokens tokens.visible stack = .ok theme := by
  obtain ⟨r, isBasis, collected⟩ := ofTokens_eq_ok resolved
  have isTokens := (Basis.ofLayers_eq_ok isBasis).1
  rcases ran : r.collect r.keys Memory.empty with ⟨result, last⟩
  obtain rfl : result = .ok theme.entries := by rw [← collected, ran]
  have accounted := (Basis.collect_keeps ran).accounted (Basis.accounted_empty r)
  have entries := Basis.collect_shows_keys (fun key member => member)
    (Basis.accounted_empty r) ran
  refine ⟨r, last, isBasis, ran, ?_, (ofTokens_visible tokens stack).trans resolved⟩
  intro name text space rest stored split read alone
  have member : (rest, text) ∈ r.tokens.inNamespace space :=
    mem_inNamespace (isTokens ▸ stored) split
  obtain ⟨table, tokenTable, ordered, shows⟩ := valueAt_tokenTable? read member (isTokens ▸ alone)
  have isKey : keyOf space ∈ r.keys :=
    Basis.mem_keys_of_tokenTable? (isAliased_keyOf space) (by simp [tokenTable])
  rw [entries, Table.get?_filterMap_keys, if_pos isKey, ← isTokens]
  exact shown_or_covered accounted tokenTable ordered shows

def reds : Tokens :=
  ⟨[("--color-red", "red"), ("--color-red-500", "crimson"), ("--colors-blue", "blue")]⟩

def accented : Stack := [.ofTheme [("accent", .deferred (.reference "colors.red.500"))]]

theorem reds_reach_theme :
    ∃ theme, ofTokens reds accented = .ok theme ∧
      (Table.get? "colors" theme.entries).bind (Value.valueAt ["red", "DEFAULT"]) =
        some (.string "red") ∧
      ofTokens ⟨[("--color-red", "red"), ("--color-red-500", "crimson")]⟩ accented =
        .ok theme := by
  have resolves : (ofTokens reds accented).isOk := by decide +kernel
  obtain ⟨theme, resolved⟩ := exists_of_isOk resolves
  obtain ⟨r, last, isBasis, -, shows, same⟩ := tokens_reach_theme resolved
  refine ⟨theme, resolved, ?_, ?_⟩
  · have split : splitName? "--color-red" = some ("color", "red") := by decide +kernel
    have alone : reds.Alone "color" "red" "red" := by decide +kernel
    have place : reds.placeOf "color" "red" = ["red", "DEFAULT"] := by decide +kernel
    have key : keyOf "color" = "colors" := by decide +kernel
    rcases shows "--color-red" "red" "color" "red" (by decide) split (by decide +kernel) alone
      with shown | ⟨own, ⟨setting, member, -⟩, -⟩
    · rwa [place, key] at shown
    · -- The only section defines another key.
      obtain rfl : (⟨reds, [[("accent", .deferred (.reference "colors.red.500"))]]⟩ : Basis) = r :=
        Except.ok.inj isBasis
      have nothing : Plan.settingsFor "colors"
          [[("accent", .deferred (.reference "colors.red.500"))]] = [] := rfl
      simp [key, nothing] at member
  · have visible : reds.visible = ⟨[("--color-red", "red"), ("--color-red-500", "crimson")]⟩ := by
      decide +kernel
    rwa [visible] at same

end UtilityCss.Theme
