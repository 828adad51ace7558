import Mathlib.Tactic.SplitIfs
import UtilityCss.Theme.Resolution

set_option autoImplicit false

namespace UtilityCss.Theme

variable {segment space : String}

theorem mem_of_find?_key {entry : String × String}
    (found : (namespaceKeys.find? fun entry => entry.1 = space) = some entry) :
    entry ∈ namespaceKeys ∧ entry.1 = space :=
  ⟨List.mem_of_find?_eq_some found, by simpa using List.find?_some found⟩

theorem mem_of_find?_namespace {entry : String × String}
    (found : (namespaceKeys.find? fun entry => entry.2 = segment) = some entry) :
    entry ∈ namespaceKeys ∧ entry.2 = segment :=
  ⟨List.mem_of_find?_eq_some found, by simpa using List.find?_some found⟩

theorem isAliased_eq_false : isAliased segment = false ↔ keyOf segment = segment := by
  simp [isAliased]

theorem isAliased_eq_true : isAliased segment = true ↔ keyOf segment ≠ segment := by
  simp [isAliased]

theorem keyOf_keyOf (space : String) : keyOf (keyOf space) = keyOf space := by
  have listed : ∀ entry ∈ namespaceKeys, keyOf entry.2 = entry.2 := by decide +kernel
  unfold keyOf
  cases found : namespaceKeys.find? fun entry => entry.1 = space with
  | none => simp [found]
  | some entry => exact listed entry (mem_of_find?_key found).1

theorem isAliased_keyOf (space : String) : isAliased (keyOf space) = false :=
  isAliased_eq_false.2 (keyOf_keyOf space)

theorem keyOf_namespaceFor (plain : isAliased segment = false) :
    keyOf (namespaceFor segment) = segment := by
  have listed : ∀ entry ∈ namespaceKeys, keyOf entry.1 = entry.2 := by decide +kernel
  unfold namespaceFor
  cases found : namespaceKeys.find? fun entry => entry.2 = segment with
  | none => exact isAliased_eq_false.1 plain
  | some entry =>
    obtain ⟨member, same⟩ := mem_of_find?_namespace found
    exact (listed entry member).trans same

theorem namespaceFor_of_isAliased (aliased : isAliased segment = true) :
    namespaceFor segment = segment := by
  have listed : ∀ entry ∈ namespaceKeys, keyOf entry.2 = entry.2 := by decide +kernel
  unfold namespaceFor
  cases found : namespaceKeys.find? fun entry => entry.2 = segment with
  | none => rfl
  | some entry =>
    obtain ⟨member, same⟩ := mem_of_find?_namespace found
    exact absurd (same ▸ listed entry member) (isAliased_eq_true.1 aliased)

theorem namespaceFor_keyOf (aliased : isAliased space = true) :
    namespaceFor (keyOf space) = space := by
  have listed : ∀ entry ∈ namespaceKeys, namespaceFor entry.2 = entry.1 := by decide +kernel
  have different := isAliased_eq_true.1 aliased
  unfold keyOf at different ⊢
  cases found : namespaceKeys.find? fun entry => entry.1 = space with
  | none => simp [found] at different
  | some entry =>
    obtain ⟨member, same⟩ := mem_of_find?_key found
    exact (listed entry member).trans same

namespace Tokens

theorem mem_foldl_distinct (item : String) (items seen : List String) :
    item ∈ items.foldl (fun seen item => if item ∈ seen then seen else seen ++ [item]) seen ↔
      item ∈ seen ∨ item ∈ items := by
  induction items generalizing seen with
  | nil => simp
  | cons first rest ih =>
    rw [List.foldl_cons, ih, List.mem_cons]
    split_ifs with member
    · constructor
      · rintro (before | later)
        · exact .inl before
        · exact .inr (.inr later)
      · rintro (before | rfl | later)
        · exact .inl before
        · exact .inl member
        · exact .inr later
    · rw [List.mem_append, List.mem_singleton, or_assoc]

theorem mem_distinct {item : String} {items : List String} :
    item ∈ distinct items ↔ item ∈ items := by
  simpa [distinct] using mem_foldl_distinct item items []

theorem namespaceTable?_eq_none_iff {tokens : Tokens} :
    tokens.namespaceTable? space = none ↔ tokens.inNamespace space = [] := by
  unfold namespaceTable?
  cases tokens.inNamespace space <;> simp

theorem mem_namespaces {tokens : Tokens} (found : (tokens.namespaceTable? space).isSome) :
    space ∈ tokens.namespaces := by
  have nonempty : tokens.inNamespace space ≠ [] := by
    intro empty
    simp [namespaceTable?, empty] at found
  obtain ⟨⟨rest, value⟩, member⟩ := List.exists_mem_of_ne_nil _ nonempty
  obtain ⟨⟨name, held⟩, isEntry, split⟩ := List.mem_filterMap.1 member
  rw [namespaces, mem_distinct, List.mem_filterMap]
  refine ⟨(name, held), isEntry, ?_⟩
  dsimp only at split
  cases parts : splitName? name with
  | none => simp [parts] at split
  | some pair =>
    obtain ⟨other, tail⟩ := pair
    simp only [parts] at split
    split_ifs at split with same
    simp [namespaceOf?, parts, same]

end Tokens

theorem mem_inNamespace {tokens : Tokens} {name rest text : String}
    (stored : (name, text) ∈ tokens.entries) (split : splitName? name = some (space, rest)) :
    (rest, text) ∈ tokens.inNamespace space := by
  unfold Tokens.inNamespace
  exact List.mem_filterMap.2 ⟨(name, text), stored, by simp [split]⟩

namespace Basis

variable {r : Basis}

theorem tokenTable?_keyOf (r : Basis) (aliased : isAliased space = true) :
    r.tokenTable? (keyOf space) = r.tokenTable? space := by
  rw [tokenTable?, tokenTable?, namespaceFor_keyOf aliased, namespaceFor_of_isAliased aliased]

theorem mem_keys_of_tokenTable? (plain : isAliased segment = false)
    (found : (r.tokenTable? segment).isSome) : segment ∈ r.keys := by
  rw [keys, Ordered.mem_ofList, List.mem_append, List.mem_map]
  refine .inr ⟨namespaceFor segment, Tokens.mem_namespaces ?_, keyOf_namespaceFor plain⟩
  simpa [tokenTable?] using found

theorem mem_keys_of_mem_configKeys {key : String} (configured : key ∈ r.configKeys) :
    key ∈ r.keys := by
  rw [keys, Ordered.mem_ofList, List.mem_append]
  exact .inl configured

theorem mem_keys {key : String} (member : key ∈ r.keys) :
    key ∈ r.configKeys ∨ key ∉ r.configKeys ∧ isAliased key = false := by
  by_cases configured : key ∈ r.configKeys
  · exact .inl configured
  · rw [keys, Ordered.mem_ofList, List.mem_append, List.mem_map] at member
    obtain ⟨space, -, rfl⟩ := member.resolve_left configured
    exact .inr ⟨configured, isAliased_keyOf space⟩

end Basis

end UtilityCss.Theme
