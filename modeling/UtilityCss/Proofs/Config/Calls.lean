import UtilityCss.Proofs.Config.References
import UtilityCss.Proofs.Text.Trim
import UtilityCss.Proofs.Value.Strings

set_option autoImplicit false

namespace UtilityCss.Config

def themeCall (path : String) : String := "theme(" ++ path ++ ")"

namespace Setting

variable {text : List Char} {path : String} {setting : Setting} {key : String} {keys : List String}
  {value : Value} {kind : String → Prop}

theorem dropQuote_of_unquoted (unquoted : ∀ c ∈ text.head?, c ≠ '\'' ∧ c ≠ '"') :
    dropQuote text = text := by
  cases text with
  | nil => rfl
  | cons c rest =>
    obtain ⟨single, double⟩ := unquoted c rfl
    unfold dropQuote
    split <;> simp_all

theorem trimStart_behind {c : Char} (trimmed : ∀ d ∈ (c :: text).getLast?, isBlank d = false) :
    ∃ d rest, Text.trimStart (c :: text ++ [')']) = d :: rest ++ [')'] := by
  have dark : isBlank ')' = false := by decide
  rw [Text.trimStart_append_dark dark]
  cases kept : Text.trimStart (c :: text) with
  | cons d rest => exact ⟨d, rest, rfl⟩
  | nil =>
    have blank : ∀ d ∈ c :: text, isBlank d = true := List.dropWhile_eq_nil_iff.1 kept
    have last := List.getLast?_eq_some_getLast (List.cons_ne_nil c text)
    have light := blank _ (List.mem_of_mem_getLast? last)
    rw [trimmed _ last] at light
    cases light

theorem referencePath?_call (spoken : path ≠ "")
    (unquoted : ∀ c ∈ path.toList, c ≠ '\'' ∧ c ≠ '"') (trimmed : Text.Trimmed path.toList) :
    referencePath? (themeCall path) =
      if path.toList.all isReferenceChar then some path else none := by
  have spelled : (themeCall path).toList =
      ['t', 'h', 'e', 'm', 'e', '('] ++ (path.toList ++ [')']) := by
    simp [themeCall, String.toList_append]
  obtain ⟨c, rest, isPath⟩ := List.exists_cons_of_ne_nil (by simpa using spoken : path.toList ≠ [])
  have opened : Text.trimStart (themeCall path).toList =
      ['t', 'h', 'e', 'm', 'e', '('] ++ (path.toList ++ [')']) := by
    rw [spelled]
    exact Text.trimStart_cons (by decide) _
  have argument : dropQuote (Text.trimStart (path.toList ++ [')'])) = path.toList ++ [')'] := by
    rw [isPath] at trimmed unquoted ⊢
    rw [Text.trimStart_of_first (by simpa using trimmed.first)]
    exact dropQuote_of_unquoted (by simpa using unquoted c List.mem_cons_self)
  have behind : ['t', 'h', 'e', 'm', 'e', '('].isPrefixOf? (themeCall path).toList =
      some (path.toList ++ [')']) := List.isPrefixOf?_eq_some_iff_append_eq.2 spelled.symm
  rw [referencePath?, opened, ← spelled, behind]
  simp only [argument]
  by_cases plain : path.toList.all isReferenceChar = true
  · have letters : ∀ c ∈ path.toList, isReferenceChar c = true := List.all_eq_true.1 plain
    have ending : Text.trimStart (dropQuote ([')'].dropWhile isReferenceChar)) = [')'] := by decide
    have start : [')'].takeWhile isReferenceChar = [] := by decide
    rw [if_pos plain, List.takeWhile_append_of_pos letters, List.dropWhile_append_of_pos letters,
      ending, start]
    simp [Text.trimStart, spoken]
  · obtain ⟨d, more, kept⟩ : ∃ d more, path.toList.dropWhile isReferenceChar = d :: more := by
      refine List.exists_cons_of_ne_nil fun nothing => plain ?_
      exact List.all_eq_true.2 (List.dropWhile_eq_nil_iff.1 nothing)
    have suffix : d :: more <:+ path.toList := kept ▸ List.dropWhile_suffix _
    have whole : (path.toList ++ [')']).dropWhile isReferenceChar = d :: more ++ [')'] := by
      simp [List.dropWhile_append, kept]
    have unmarked : dropQuote (d :: more ++ [')']) = d :: more ++ [')'] :=
      dropQuote_of_unquoted (by simpa using unquoted d (suffix.subset List.mem_cons_self))
    obtain ⟨first, others, left⟩ := trimStart_behind (Text.last_of_suffix suffix trimmed.last)
    rw [if_neg plain, whole, unmarked, left]
    have loud : (Text.trimStart (others ++ [')'])).isEmpty = false := by
      rw [Text.trimStart_append_dark (by decide)]
      simp
    by_cases closes : first = ')'
    · simp [closes, loud]
    · simp [closes]

theorem get?_ofEntries (key : String) (entries : List (String × Value)) :
    Table.get? key (ofEntries entries) = (Table.get? key entries).map ofValue := by
  induction entries with
  | nil => rfl
  | cons entry rest ih =>
    obtain ⟨other, value⟩ := entry
    rw [ofEntries, Table.get?, Table.get?, ih]
    split_ifs <;> rfl

theorem get?_ofValue_leaf (leaf : value.isTable = false) : (ofValue value).get? key = none := by
  cases value with
  | table entries => cases leaf
  | string text =>
    rw [ofValue]
    cases referencePath? text <;> rfl
  | _ => rfl

theorem get?_ofValue (key : String) (value : Value) :
    (ofValue value).get? key = (Value.valueAt [key] value).map ofValue := by
  cases isTable : value.isTable with
  | false => rw [get?_ofValue_leaf isTable, Value.valueAt_cons_leaf isTable, Option.map_none]
  | true =>
    cases value with
    | table entries =>
      rw [Value.valueAt_single, ofValue, get?, entries?, Option.bind_some, get?_ofEntries]
    | _ => cases isTable

theorem settingAt_ofValue (keys : List String) (value : Value) :
    settingAt keys (ofValue value) = (Value.valueAt keys value).map ofValue := by
  induction keys generalizing value with
  | nil => simp [settingAt]
  | cons key rest ih =>
    have parted : Value.valueAt (key :: rest) value =
        (Value.valueAt [key] value).bind (Value.valueAt rest) := Value.valueAt_append [key] rest value
    rw [settingAt, get?_ofValue, parted]
    cases Value.valueAt [key] value with
    | none => rfl
    | some inner => exact ih inner

theorem exists_of_get?_ofValue (found : (ofValue value).get? key = some setting) :
    ∃ inner, Value.valueAt [key] value = some inner ∧ ofValue inner = setting := by
  rw [get?_ofValue] at found
  exact Option.map_eq_some_iff.1 found

mutual

def literals : Setting → List Value
  | .literal value => [value]
  | .deferred _ => []
  | .table entries => entryLiterals entries

def entryLiterals : List (String × Setting) → List Value
  | [] => []
  | (_, setting) :: rest => literals setting ++ entryLiterals rest

end

theorem mem_entryLiterals {entries : List (String × Setting)} :
    value ∈ entryLiterals entries ↔ ∃ entry ∈ entries, value ∈ entry.2.literals := by
  induction entries with
  | nil => simp [entryLiterals]
  | cons entry rest ih => simp [entryLiterals, ih]

def Literally (kind : String → Prop) (setting : Setting) : Prop :=
  ∀ value ∈ setting.literals, value.Only kind

theorem literally_table {entries : List (String × Setting)} :
    (Setting.table entries).Literally kind ↔ ∀ entry ∈ entries, entry.2.Literally kind := by
  simp only [Literally, literals, mem_entryLiterals]
  constructor
  · exact fun literally entry member value inside => literally value ⟨entry, member, inside⟩
  · rintro literally value ⟨entry, member, inside⟩
    exact literally entry member value inside

theorem Literally.below {inner : Setting} (literally : setting.Literally kind)
    (found : setting.get? key = some inner) : inner.Literally kind := by
  cases setting with
  | table entries => exact literally_table.1 literally (key, inner) (Table.mem_of_get? found)
  | literal value => cases found
  | deferred value => cases found

mutual

theorem literals_ofValue : ∀ document : Value, ∀ value ∈ (ofValue document).literals,
    ∀ text ∈ value.strings, referencePath? text ≠ none → ∃ items, value = .array items
  | .table entries => by
    intro value member
    rw [ofValue, literals, mem_entryLiterals] at member
    obtain ⟨entry, inside, own⟩ := member
    exact literals_ofEntries entries entry inside value own
  | .string text => by
    unfold ofValue
    cases called : referencePath? text <;> simp [literals, Value.strings, called]
  | .array items => by
    rintro value member text - -
    exact ⟨items, by simpa [ofValue, literals] using member⟩
  | .integer _ => by simp [ofValue, literals, Value.strings]
  | .float _ => by simp [ofValue, literals, Value.strings]
  | .boolean _ => by simp [ofValue, literals, Value.strings]
  | .datetime _ => by simp [ofValue, literals, Value.strings]

theorem literals_ofEntries : ∀ entries : List (String × Value), ∀ entry ∈ ofEntries entries,
    ∀ value ∈ entry.2.literals,
    ∀ text ∈ value.strings, referencePath? text ≠ none → ∃ items, value = .array items
  | [] => by simp [ofEntries]
  | (_, value) :: rest => by
    rw [ofEntries, List.forall_mem_cons]
    exact ⟨literals_ofValue value, literals_ofEntries rest⟩

end

end Setting

end UtilityCss.Config
