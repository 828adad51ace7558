import Mathlib.Data.List.Infix
import UtilityCss.Proofs.Theme.Names

set_option autoImplicit false

namespace UtilityCss.Theme.Tokens

inductive Change where
  | declare (name value : String)
  | erase (space : String)
  deriving DecidableEq, Repr

variable {name value space : String} {entries : List (String × String)} {keep : String → Bool}

def IsReset (name value : String) : Prop :=
  trimText value = "initial" ∧ (name = "--*" ∨ ∃ space, name = "--" ++ space ++ "-*")

theorem starredNamespace?_eq_some_iff {text rest : List Char} :
    starredNamespace? text = some rest ↔ text = ['-', '-'] ++ rest ++ ['-', '*'] := by
  unfold starredNamespace? Text.dropEnd?
  simp only [Option.bind_eq_some_iff, Option.map_eq_some_iff,
    List.isPrefixOf?_eq_some_iff_append_eq]
  constructor
  · rintro ⟨body, ⟨start, reversed, rfl⟩, begins⟩
    simpa [← begins] using congrArg List.reverse reversed.symm
  · rintro rfl
    exact ⟨['-', '-'] ++ rest, ⟨(['-', '-'] ++ rest).reverse, by simp, by simp⟩, rfl⟩

theorem starred_ne_all (space : String) : "--" ++ space ++ "-*" ≠ "--*" := by
  intro same
  have lengths := congrArg String.length same
  simp only [String.length_append] at lengths
  change 2 + space.length + 2 = 3 at lengths
  omega

theorem reset?_eq_all_iff :
    reset? name value = some .all ↔ trimText value = "initial" ∧ name = "--*" := by
  unfold reset?
  split_ifs with other all
  · simp [other]
  · simp [all, not_not.1 other]
  · simp [all]

theorem reset?_eq_space_iff : reset? name value = some (.space space) ↔
    trimText value = "initial" ∧ name = "--" ++ space ++ "-*" := by
  unfold reset?
  split_ifs with other all
  · simp [other]
  · simp [all, (starred_ne_all space).symm]
  · have spelled : name = "--" ++ space ++ "-*" ↔
        name.toList = ['-', '-'] ++ space.toList ++ ['-', '*'] := by
      rw [← String.toList_inj, String.toList_append, String.toList_append]
      rfl
    rw [spelled, ← starredNamespace?_eq_some_iff]
    simp [not_not.1 other, ← String.toList_inj]

theorem isReset_iff : IsReset name value ↔ reset? name value ≠ none := by
  constructor
  · rintro ⟨initial, rfl | ⟨space, rfl⟩⟩
    · simp [reset?_eq_all_iff.2 ⟨initial, rfl⟩]
    · simp [reset?_eq_space_iff.2 ⟨initial, rfl⟩]
  · intro resets
    rcases found : reset? name value with _ | _ | space
    · exact absurd found resets
    · obtain ⟨initial, isAll⟩ := reset?_eq_all_iff.1 found
      exact ⟨initial, .inl isAll⟩
    · obtain ⟨initial, isSpace⟩ := reset?_eq_space_iff.1 found
      exact ⟨initial, .inr ⟨space, isSpace⟩⟩

instance (name value : String) : Decidable (IsReset name value) :=
  decidable_of_iff _ isReset_iff.symm

namespace Change

def perform (tokens : Tokens) : Change → Tokens
  | .declare name value => tokens.add name value
  | .erase space => tokens.eraseNamespace space

def declared : Change → List (String × String)
  | .declare name value => if IsReset name value then [] else [(name, value)]
  | .erase _ => []

def Resets : Change → String → Prop
  | .declare starred value, name => trimText value = "initial" ∧
      (starred = "--*" ∨ ∃ space ∈ namespaceOf? name, starred = "--" ++ space ++ "-*")
  | .erase space, name => namespaceOf? name = some space

instance (change : Change) (name : String) : Decidable (change.Resets name) :=
  match change with
  | .declare _ _ => inferInstanceAs (Decidable (_ ∧ _))
  | .erase _ => inferInstanceAs (Decidable (_ = _))

end Change

def after (changes : List Change) : Tokens := changes.foldl Change.perform empty

/-- The declarations that no later change resets. -/
def standing : List Change → List (String × String)
  | [] => []
  | change :: later =>
    (change.declared.filter fun entry => ∀ next ∈ later, ¬ next.Resets entry.1) ++ standing later

theorem standing_concat (changes : List Change) (last : Change) :
    standing (changes ++ [last]) =
      ((standing changes).filter fun entry => ¬ last.Resets entry.1) ++ last.declared := by
  induction changes with
  | nil => simp [standing]
  | cons first rest ih =>
    simp [standing, ih, List.filter_filter, or_imp, forall_and, and_comm]

def record (declarations entries : List (String × String)) : List (String × String) :=
  declarations.foldl (fun entries (name, value) => set name value entries) entries

theorem filter_set : (set name value entries).filter (fun entry => keep entry.1) =
    if keep name then set name value (entries.filter fun entry => keep entry.1)
    else entries.filter fun entry => keep entry.1 := by
  induction entries with
  | nil => simp [set, List.filter_cons]
  | cons entry rest ih =>
    obtain ⟨other, old⟩ := entry
    by_cases same : other = name
    · subst same
      cases kept : keep other <;> simp [set, kept]
    · cases kept : keep other <;> cases keptAlso : keep name <;> simp_all [set]

theorem filter_record (keep : String → Bool) (declarations entries : List (String × String)) :
    (record declarations entries).filter (fun entry => keep entry.1) =
      record (declarations.filter fun entry => keep entry.1)
        (entries.filter fun entry => keep entry.1) := by
  induction declarations generalizing entries with
  | nil => rfl
  | cons declaration rest ih =>
    rw [record, List.foldl_cons, ← record, ih, filter_set, List.filter_cons]
    split_ifs <;> rfl

theorem resets_declare_iff {starred : String} : (Change.declare starred value).Resets name ↔
    reset? starred value = some .all ∨
      ∃ space, namespaceOf? name = some space ∧ reset? starred value = some (.space space) := by
  simp only [Change.Resets, reset?_eq_all_iff, reset?_eq_space_iff, Option.mem_def]
  constructor
  · rintro ⟨initial, isAll | ⟨space, isNamespace, isSpace⟩⟩
    · exact .inl ⟨initial, isAll⟩
    · exact .inr ⟨space, isNamespace, initial, isSpace⟩
  · rintro (⟨initial, isAll⟩ | ⟨space, isNamespace, initial, isSpace⟩)
    · exact ⟨initial, .inl isAll⟩
    · exact ⟨initial, .inr ⟨space, isNamespace, isSpace⟩⟩

theorem entries_perform (tokens : Tokens) (change : Change) :
    (change.perform tokens).entries =
      record change.declared (tokens.entries.filter fun entry => ¬ change.Resets entry.1) := by
  cases change with
  | erase space => rfl
  | declare starred value =>
    rcases found : reset? starred value with _ | _ | space <;>
      simp [Change.perform, add, Change.declared, resets_declare_iff, isReset_iff, found, record,
        empty, eraseNamespace]

theorem entries_after (changes : List Change) :
    (after changes).entries = record (standing changes) [] := by
  induction changes using List.reverseRecOn with
  | nil => rfl
  | append_singleton changes last ih =>
    have step : after (changes ++ [last]) = last.perform (after changes) := by
      rw [after, List.foldl_append]
      rfl
    rw [step, entries_perform, ih, standing_concat,
      filter_record fun name => decide (¬ last.Resets name), record, record, record,
      List.foldl_append]
    rfl

theorem record_concat (declarations : List (String × String)) :
    record (declarations ++ [(name, value)]) entries =
      set name value (record declarations entries) := by
  rw [record, List.foldl_append]
  rfl

theorem distinct_concat (items : List String) (item : String) :
    distinct (items ++ [item]) =
      if item ∈ distinct items then distinct items else distinct items ++ [item] := by
  rw [distinct, List.foldl_append]
  rfl

theorem map_fst_set : (set name value entries).map Prod.fst =
    if name ∈ entries.map Prod.fst then entries.map Prod.fst
    else entries.map Prod.fst ++ [name] := by
  induction entries with
  | nil => rfl
  | cons entry rest ih =>
    obtain ⟨other, old⟩ := entry
    by_cases same : other = name
    · simp [set, same]
    · simp only [set, if_neg same, List.map_cons, ih, List.mem_cons, Ne.symm same, false_or]
      split_ifs <;> rfl

theorem names_record (declarations : List (String × String)) :
    (record declarations []).map Prod.fst = distinct (declarations.map Prod.fst) := by
  induction declarations using List.reverseRecOn with
  | nil => rfl
  | append_singleton declarations last ih =>
    obtain ⟨name, value⟩ := last
    rw [record_concat, map_fst_set, ih, List.map_append, List.map_singleton, distinct_concat]

theorem pairwise_distinct (items : List String) :
    (distinct items).Pairwise fun first second => items.idxOf first < items.idxOf second := by
  induction items using List.reverseRecOn with
  | nil => exact List.Pairwise.nil
  | append_singleton items last ih =>
    have before : (distinct items).Pairwise fun first second =>
        (items ++ [last]).idxOf first < (items ++ [last]).idxOf second := by
      refine ih.imp_of_mem fun first second less => ?_
      rwa [List.idxOf_append_of_mem (mem_distinct.1 first),
        List.idxOf_append_of_mem (mem_distinct.1 second)]
    rw [distinct_concat]
    split_ifs with member
    · exact before
    · refine List.pairwise_append.2 ⟨before, List.pairwise_singleton _ _, fun first inside => ?_⟩
      simp only [List.mem_singleton, forall_eq]
      rw [mem_distinct] at inside member
      rw [List.idxOf_append_of_mem inside, List.idxOf_append, if_neg member]
      exact Nat.lt_add_left _ (List.idxOf_lt_length_of_mem inside)

def IsLast (declarations : List (String × String)) (name value : String) : Prop :=
  ∃ before later, declarations = before ++ (name, value) :: later ∧ name ∉ later.map Prod.fst

theorem isLast_concat {declarations : List (String × String)} {other held : String} :
    IsLast (declarations ++ [(name, value)]) other held ↔
      if other = name then held = value else IsLast declarations other held := by
  constructor
  · rintro ⟨before, later, split, fresh⟩
    rcases later.eq_nil_or_concat with rfl | ⟨rest, last, rfl⟩
    · obtain ⟨-, same⟩ := List.append_inj' split rfl
      obtain ⟨rfl, rfl⟩ : name = other ∧ value = held := by simpa using same
      simp
    · rw [List.concat_eq_append, ← List.cons_append, ← List.append_assoc] at split
      obtain ⟨rfl, same⟩ := List.append_inj' split rfl
      obtain rfl : (name, value) = last := by simpa using same
      have different : other ≠ name ∧ other ∉ rest.map Prod.fst := by
        simpa [not_or, and_comm] using fresh
      rw [if_neg different.1]
      exact ⟨before, rest, rfl, different.2⟩
  · split_ifs with same
    · rintro rfl
      exact ⟨declarations, [], by rw [same], by simp⟩
    · rintro ⟨before, later, rfl, fresh⟩
      exact ⟨before, later ++ [(name, value)], by simp, by simpa [same] using fresh⟩

theorem mem_set_iff {other held : String} (unique : (entries.map Prod.fst).Nodup) :
    (other, held) ∈ set name value entries ↔
      if other = name then held = value else (other, held) ∈ entries := by
  induction entries with
  | nil => by_cases same : other = name <;> simp [set, same]
  | cons entry rest ih =>
    obtain ⟨first, old⟩ := entry
    obtain ⟨absent, later⟩ := List.nodup_cons.1 unique
    have only (held : String) : (first, held) ∉ rest := fun inside =>
      absent (List.mem_map.2 ⟨_, inside, rfl⟩)
    by_cases same : first = name
    · subst same
      by_cases again : other = first
      · subst again
        simp [set, only]
      · simp [set, again]
    · by_cases again : other = name
      · subst again
        simp [set, same, Ne.symm same, ih later]
      · simp [set, same, again, ih later]

theorem mem_record_iff (declarations : List (String × String)) :
    (name, value) ∈ record declarations [] ↔ IsLast declarations name value := by
  induction declarations using List.reverseRecOn with
  | nil => simp [record, IsLast]
  | append_singleton declarations last ih =>
    obtain ⟨other, held⟩ := last
    have unique : ((record declarations []).map Prod.fst).Nodup := by
      rw [names_record]
      exact (pairwise_distinct _).imp fun less same => absurd (same ▸ less) (lt_irrefl _)
    rw [record_concat, mem_set_iff unique, isLast_concat, ih]

theorem findIdx_lt_of_idxOf_lt {α : Type} (label? : α → Option String) (items : List α)
    {first second : String}
    (less : (items.filterMap label?).idxOf first < (items.filterMap label?).idxOf second) :
    items.findIdx (fun item => label? item = some first) <
      items.findIdx fun item => label? item = some second := by
  induction items with
  | nil => simp at less
  | cons item rest ih =>
    rw [List.findIdx_cons, List.findIdx_cons]
    cases labelled : label? item with
    | none =>
      rw [List.filterMap_cons_none labelled] at less
      simpa using ih less
    | some label =>
      rw [List.filterMap_cons_some labelled, List.idxOf_cons, List.idxOf_cons] at less
      by_cases isFirst : label = first
      · have different : label ≠ second := by
          rintro rfl
          simp [isFirst] at less
        simp [isFirst, isFirst ▸ different]
      · by_cases isSecond : label = second
        · simp [isSecond] at less
        · rw [beq_false_of_ne isFirst, beq_false_of_ne isSecond, cond_false, cond_false] at less
          simpa [isFirst, isSecond] using ih (Nat.lt_of_add_lt_add_right less)

/-- Tokens after any changes of an empty store: each name that stands has the value of its last
standing declaration, and the names come in the order of their first ones. The namespaces are those
with a table, each once and where the first of its tokens comes. -/
theorem tokens_of_changes (changes : List Change) :
    (∀ name value, (name, value) ∈ (after changes).entries ↔
      IsLast (standing changes) name value) ∧
    ((after changes).entries.Pairwise fun first second =>
      ((standing changes).map Prod.fst).idxOf first.1 <
        ((standing changes).map Prod.fst).idxOf second.1) ∧
    ((after changes).namespaces.Pairwise fun first second =>
      (after changes).entries.findIdx (fun entry => namespaceOf? entry.1 = some first) <
        (after changes).entries.findIdx fun entry => namespaceOf? entry.1 = some second) ∧
    ∀ space, space ∈ (after changes).namespaces ↔
      ((after changes).namespaceTable? space).isSome := by
  refine ⟨fun name value => ?_, ?_, ?_, fun space => ?_⟩
  · rw [entries_after, mem_record_iff]
  · have names := pairwise_distinct ((standing changes).map Prod.fst)
    rw [← names_record, ← entries_after] at names
    exact (List.pairwise_map (f := Prod.fst) (R := fun first second =>
      ((standing changes).map Prod.fst).idxOf first <
        ((standing changes).map Prod.fst).idxOf second)).1 names
  · exact (pairwise_distinct _).imp fun less => findIdx_lt_of_idxOf_lt _ _ less
  · refine ⟨fun listed => ?_, mem_namespaces⟩
    rw [namespaces, mem_distinct, List.mem_filterMap] at listed
    obtain ⟨⟨name, value⟩, stored, isNamespace⟩ := listed
    obtain ⟨⟨_, rest⟩, split, rfl⟩ := Option.map_eq_some_iff.1 isNamespace
    rw [Option.isSome_iff_ne_none, Ne, namespaceTable?_eq_none_iff]
    exact List.ne_nil_of_mem (mem_inNamespace stored split)

example : (after [.declare "--font-weight-bold" "700", .declare "--font-sans" "Inter",
    .declare "--font-weight-bold" "800", .declare "--font-*" "initial", .declare "--color" "red",
    .declare "--font-sans" "Arial"]).entries =
      [("--font-weight-bold", "800"), ("--color", "red"), ("--font-sans", "Arial")] := by
  decide +kernel

end UtilityCss.Theme.Tokens
