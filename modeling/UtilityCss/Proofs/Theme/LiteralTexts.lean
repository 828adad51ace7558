import UtilityCss.Proofs.Config.Calls
import UtilityCss.Proofs.Theme.KeyPath
import UtilityCss.Proofs.Theme.Outcome
import UtilityCss.Proofs.Theme.TokenTable

set_option autoImplicit false

namespace UtilityCss.Theme

open UtilityCss.Config

variable {kind : String → Prop} {value inner : Value} {table : Table Value} {key : String}
  {path keys : List String}

theorem only_follow (only : value.Only kind) (found : follow path value = some inner) :
    inner.Only kind := by
  induction path generalizing value with
  | nil =>
    obtain rfl : value = inner := by simpa [follow] using found
    exact only
  | cons segment rest ih =>
    cases value with
    | table entries =>
      rw [follow] at found
      obtain ⟨below, isBelow, later⟩ := Option.bind_eq_some_iff.1 found
      exact ih (only.entry isBelow) later
    | array items =>
      rw [follow] at found
      obtain ⟨index, -, further⟩ := Option.bind_eq_some_iff.1 found
      obtain ⟨below, isBelow, later⟩ := Option.bind_eq_some_iff.1 further
      exact ih (Value.only_array.1 only below (List.mem_of_getElem? isBelow)) later
    | _ => cases found

theorem only_nestedEntries (only : (Value.table table).Only kind) :
    (Value.table (nestedEntries key table)).Only kind := by
  rcases get?_cases key table with ⟨-, same⟩ | ⟨leaf, found, -, same⟩ | ⟨entries, found, same⟩
  · rw [same]
    exact Value.only_table.2 (by simp)
  · rw [same]
    exact Value.only_table.2 (by simpa using only.entry found)
  · rw [same]
    exact only.entry found

theorem only_insertAt (only : (Value.table table).Only kind) (isValue : value.Only kind) :
    (Value.table (insertAt path value table)).Only kind := by
  induction path generalizing table with
  | nil => exact only
  | cons key rest ih =>
    cases rest with
    | nil =>
      unfold insertAt
      split
      next entries found =>
        exact Value.only_insert only (Value.only_insert (only.entry found) isValue)
      next => exact Value.only_insert only isValue
    | cons next others => exact Value.only_insert only (ih (only_nestedEntries only))

theorem only_filled {leaves : List (List String × Value)} (only : (Value.table table).Only kind)
    (areOnly : ∀ entry ∈ leaves, entry.2.Only kind) :
    (Value.table (filled leaves table)).Only kind := by
  induction leaves generalizing table with
  | nil => exact only
  | cons entry rest ih =>
    obtain ⟨first, others⟩ := List.forall_mem_cons.1 areOnly
    exact ih (only_insertAt only first) others

theorem mem_entries_of_inNamespace {tokens : Tokens} {space rest text : String}
    (member : (rest, text) ∈ tokens.inNamespace space) : text ∈ tokens.entries.map Prod.snd := by
  obtain ⟨⟨name, value⟩, inside, isToken⟩ := List.mem_filterMap.1 member
  refine List.mem_map.2 ⟨(name, value), inside, ?_⟩
  cases split : splitName? name with
  | none => simp [split] at isToken
  | some parts =>
    simp only [split] at isToken
    split_ifs at isToken
    exact congrArg Prod.snd (Option.some.inj isToken)

theorem only_namespaceTable? {tokens : Tokens} {space : String}
    (texts : ∀ text ∈ tokens.entries.map Prod.snd, kind text)
    (found : tokens.namespaceTable? space = some table) : (Value.table table).Only kind := by
  obtain ⟨⟨rest, text⟩, member⟩ : ∃ entry, entry ∈ tokens.inNamespace space := by
    apply List.exists_mem_of_ne_nil
    intro empty
    simp [Tokens.namespaceTable?, empty] at found
  rw [Tokens.namespaceTable?_eq member, Option.some.injEq] at found
  rw [← found]
  refine only_filled (Value.only_table.2 (by simp)) (List.forall_mem_map.2 fun entry inside => ?_)
  exact Value.only_string.2 (texts _ (mem_entries_of_inNamespace inside))

section Answers

variable {value? : String → Option Value}

mutual

theorem only_replaced? (answers : ∀ path, ∀ value ∈ value? path, value.Only kind) :
    ∀ setting : Setting, setting.Literally kind → ∀ value ∈ setting.replaced? value?,
      value.Only kind
  | .literal value, literally => by
    rintro other ⟨⟩
    exact literally value List.mem_cons_self
  | .deferred (.reference path), _ => answers path
  | .deferred (.computed _), _ => by simp [Setting.replaced?]
  | .table entries, literally => by
    intro value replaced
    obtain ⟨values, found, rfl⟩ := Option.map_eq_some_iff.1 replaced
    exact Value.only_table.2
      (only_replacedEntries? answers entries (Setting.literally_table.1 literally) values found)

theorem only_replacedEntries? (answers : ∀ path, ∀ value ∈ value? path, value.Only kind) :
    ∀ entries : List (String × Setting), (∀ entry ∈ entries, entry.2.Literally kind) →
      ∀ values ∈ Setting.replacedEntries? value? entries, ∀ entry ∈ values, entry.2.Only kind
  | [], _ => by
    rintro values ⟨⟩
    simp
  | (key, setting) :: rest, literally => by
    obtain ⟨first, others⟩ := List.forall_mem_cons.1 literally
    intro values replaced
    obtain ⟨value, isValue, later⟩ := Option.bind_eq_some_iff.1 replaced
    obtain ⟨more, isMore, same⟩ := Option.bind_eq_some_iff.1 later
    obtain rfl := Option.some.inj same
    exact List.forall_mem_cons.2 ⟨only_replaced? answers setting first value isValue,
      only_replacedEntries? answers rest others more isMore⟩

end

theorem only_replacedOver? {combine : Option Value → Value → Value}
    {running result : Option Value} {setting : Option Setting}
    (answers : ∀ path, ∀ value ∈ value? path, value.Only kind)
    (combines : ∀ upper : Value, upper.Only kind → (combine running upper).Only kind)
    (literally : ∀ found ∈ setting, found.Literally kind)
    (soFar : ∀ value ∈ running, value.Only kind)
    (replaced : replacedOver? value? combine running setting = some result) :
    ∀ value ∈ result, value.Only kind := by
  cases setting with
  | none => exact Option.some.inj replaced ▸ soFar
  | some setting =>
    obtain ⟨upper, found, rfl⟩ := Option.map_eq_some_iff.1 replaced
    rintro value ⟨⟩
    exact combines upper (only_replaced? answers setting (literally setting rfl) upper found)

theorem only_folded? {sections : List (Table Setting)} {running result : Option Value}
    (answers : ∀ path, ∀ value ∈ value? path, value.Only kind)
    (literally : ∀ setting ∈ Plan.settingsFor key sections, setting.Literally kind)
    (soFar : ∀ value ∈ running, value.Only kind)
    (folded : folded? value? key sections running = some result) :
    ∀ value ∈ result, value.Only kind := by
  induction sections generalizing running with
  | nil => exact Option.some.inj folded ▸ soFar
  | cons part rest ih =>
    simp only [Plan.settingsFor, List.flatMap_cons, List.mem_append, Option.mem_toList] at literally
    obtain ⟨defined, isDefined, later⟩ := Option.bind_eq_some_iff.1 folded
    obtain ⟨added, isAdded, last⟩ := Option.bind_eq_some_iff.1 later
    have first := only_replacedOver? answers (fun _ isUpper => isUpper)
      (fun found member => literally found (.inl (.inl member))) soFar isDefined
    have second := only_replacedOver? answers (fun _ => Value.only_extendWith first)
      (fun found member => literally found (.inl (.inr member))) first isAdded
    exact ih (fun setting member => literally setting (.inr member)) second last

end Answers

namespace Basis

variable {r : Basis} {known : Table (Option Value)} {theme : Theme}

structure Given (r : Basis) (kind : String → Prop) : Prop where
  tokens : ∀ text ∈ r.tokens.entries.map Prod.snd, kind text
  sections : ∀ key, ∀ setting ∈ Plan.settingsFor key r.sections, setting.Literally kind

theorem Given.shownSegment (given : r.Given kind)
    (settled : ∀ key, ∀ value ∈ (Table.get? key known).join, value.Only kind) (segment : String) :
    ∀ value ∈ r.shownSegment known segment, value.Only kind := by
  refine Value.only_overlay? (fun value found => ?_) fun value found => ?_
  · obtain ⟨table, isTable, rfl⟩ := Option.map_eq_some_iff.1 found
    exact only_namespaceTable? given.tokens isTable
  · obtain ⟨key, -, isKnown⟩ := Option.bind_eq_some_iff.1 found
    exact settled key value isKnown

theorem Given.shown (given : r.Given kind)
    (settled : ∀ key, ∀ value ∈ (Table.get? key known).join, value.Only kind) (path : String) :
    ∀ value ∈ r.shown known path, value.Only kind := by
  intro value found
  unfold Basis.shown at found
  rcases split : splitKeyPath path with fault | ⟨_ | ⟨first, rest⟩⟩
  · simp [split] at found
  · simp [split] at found
  · rw [split] at found
    obtain ⟨whole, isWhole, isInner⟩ := Option.bind_eq_some_iff.1 found
    exact only_follow (given.shownSegment settled first whole isWhole) isInner

theorem Given.settled (given : r.Given kind) (only : r.OnlyReferences) (settled : r.Settled known) :
    ∀ key, ∀ value ∈ (Table.get? key known).join, value.Only kind := by
  induction settled with
  | nil => simp [Table.get?]
  | @cons first last known rest configured fresh folded reads ih =>
    intro key value found
    by_cases same : key = first
    · have isLast : value ∈ last := by simpa [Table.get?, same] using found
      have answered := congrArg Except.toOption folded
      rw [planOf, toOption_answered_ofSections _ (only first) none] at answered
      exact only_folded? (given.shown ih) (given.sections first) (by simp) answered value isLast
    · rw [Table.get?, if_neg same] at found
      exact ih key value found

end Basis

theorem only_of_resolved {tokens : Tokens} {stack : Stack} {theme : Theme}
    (references : ∀ layer ∈ stack, layer.config.Refers fun _ => True)
    (texts : ∀ text ∈ tokens.entries.map Prod.snd, kind text)
    (sections : ∀ layer ∈ stack, ∀ part, layer.config.get? themeEntry = some part →
      part.Literally kind)
    (resolved : ofTokens tokens stack = .ok theme) : (Value.table theme.entries).Only kind := by
  obtain ⟨r, isBasis, collected⟩ := ofTokens_eq_ok resolved
  obtain ⟨rfl, parts⟩ := Basis.ofLayers_eq_ok isBasis
  have only : r.OnlyReferences := Basis.refers_of_stack isBasis references
  have given : r.Given kind := by
    refine ⟨texts, fun key setting member => ?_⟩
    obtain ⟨part, inside, isSetting⟩ := List.mem_flatMap.1 member
    obtain ⟨layer, isLayer, isTheme⟩ := Basis.mem_sectionsOf parts part inside
    have literally := sections layer isLayer _ isTheme
    rcases List.mem_append.1 isSetting with defined | added
    · exact literally.below (Option.mem_toList.1 defined)
    · obtain ⟨additions, isAdditions, isAdded⟩ :=
        Option.bind_eq_some_iff.1 (Option.mem_toList.1 added)
      exact (literally.below isAdditions).below isAdded
  obtain ⟨tracks, -, shows⟩ := Basis.collect_shows only r.keys (Basis.tracks_empty r) rfl
  rw [Value.only_table, (shows theme.entries collected).1]
  intro entry member
  obtain ⟨key, -, isEntry⟩ := List.mem_filterMap.1 member
  obtain ⟨value, found, rfl⟩ := Option.map_eq_some_iff.1 isEntry
  exact given.shownSegment (given.settled only tracks.settled) key value found

section Evaluation

variable {ask : String → Step (Option Value)} {setting below : Setting} {memory after : Memory}

theorem evaluateEntries_get? {entries : List (String × Setting)} {values : List (String × Value)}
    (found : Table.get? key entries = some setting)
    (evaluated : evaluateEntries ask entries memory = (.ok values, after)) :
    ∃ start value stop, evaluate ask setting start = (.ok value, stop) ∧
      Table.get? key values = some value := by
  induction entries generalizing memory values after with
  | nil => simp [Table.get?] at found
  | cons entry rest ih =>
    obtain ⟨other, first⟩ := entry
    rw [evaluateEntries] at evaluated
    rcases own : evaluate ask first memory with ⟨error | value, middle⟩
    · simp [own] at evaluated
    · rcases others : evaluateEntries ask rest middle with ⟨error | more, last⟩
      · simp [own, others] at evaluated
      · obtain rfl : (other, value) :: more = values := by
          simpa [own, others] using congrArg Prod.fst evaluated
        by_cases same : key = other
        · obtain rfl : first = setting := by simpa [Table.get?, same] using found
          exact ⟨memory, value, middle, own, by simp [Table.get?, same]⟩
        · rw [Table.get?, if_neg same] at found ⊢
          exact ih found others

theorem evaluate_settingAt (found : Setting.settingAt keys setting = some below)
    (evaluated : evaluate ask setting memory = (.ok value, after)) :
    ∃ start inner stop, evaluate ask below start = (.ok inner, stop) ∧
      Value.valueAt keys value = some inner := by
  induction keys generalizing setting memory value after with
  | nil =>
    obtain rfl : setting = below := Option.some.inj found
    exact ⟨memory, value, after, evaluated, Value.valueAt_nil value⟩
  | cons key rest ih =>
    obtain ⟨next, isNext, later⟩ := Option.bind_eq_some_iff.1 found
    cases setting with
    | literal held => cases isNext
    | deferred held => cases isNext
    | table entries =>
      rw [evaluate] at evaluated
      rcases inside : evaluateEntries ask entries memory with ⟨error | values, last⟩
      · simp [inside] at evaluated
      · obtain rfl : Value.table values = value := by
          simpa [inside] using congrArg Prod.fst evaluated
        obtain ⟨start, held, stop, own, isHeld⟩ := evaluateEntries_get? isNext inside
        rw [Value.valueAt_cons_table, isHeld]
        exact ih later own

theorem evaluate_ofValue {document part : Value}
    (found : Value.valueAt keys document = some part)
    (evaluated : evaluate ask (Setting.ofValue document) memory = (.ok value, after)) :
    ∃ start inner stop, evaluate ask (Setting.ofValue part) start = (.ok inner, stop) ∧
      Value.valueAt keys value = some inner :=
  evaluate_settingAt (by rw [Setting.settingAt_ofValue, found, Option.map_some]) evaluated

theorem evaluate_literal {held : Value}
    (evaluated : evaluate ask (.literal held) memory = (.ok value, after)) : value = held := by
  simpa [evaluate, eq_comm] using congrArg Prod.fst evaluated

theorem evaluate_reference_eq_ok {path : String}
    (evaluated : evaluate ask (.deferred (.reference path)) memory = (.ok value, after)) :
    ask path memory = (.ok (some value), after) := by
  rcases asked : ask path memory with ⟨error | _ | found, last⟩ <;>
    simp_all [evaluate, Deferred.query, Query.reference, Query.get, answer]

end Evaluation

theorem ne_empty_of_split {path : String} {segments : List String}
    (accepted : splitKeyPath path = .ok segments) : path ≠ "" := by
  rintro rfl
  obtain ⟨texts, nonempty, read, -⟩ := splitKeyPath_eq_ok_iff.1 accepted
  exact nonempty (Option.some.inj read).symm

theorem referencePath?_of_split {path : String} {segments : List String}
    (accepted : splitKeyPath path = .ok segments) (unquoted : ∀ c ∈ path.toList, isQuote c = false)
    (trimmed : Text.Trimmed path.toList) : Setting.referencePath? (themeCall path) =
      if path.toList.all Setting.isReferenceChar then some path else none := by
  have unmarked : ∀ c ∈ path.toList, c ≠ '\'' ∧ c ≠ '"' := fun c member => by
    simpa [isQuote] using unquoted c member
  exact Setting.referencePath?_call (ne_empty_of_split accepted) unmarked trimmed

/-- A call whose path can be split is a reference, if the path has no other characters than
references have. Else it stays as it is, and so does an array with the calls in it. -/
theorem themeCall_followed {path : String} {segments : List String}
    (accepted : splitKeyPath path = .ok segments) (unquoted : ∀ c ∈ path.toList, isQuote c = false)
    (trimmed : Text.Trimmed path.toList) :
    (∀ document keys, Value.valueAt keys document = some (.string (themeCall path)) →
      Setting.settingAt keys (Setting.ofValue document) =
        some (if path.toList.all Setting.isReferenceChar then .deferred (.reference path)
          else .literal (.string (themeCall path)))) ∧
    (∀ ask document keys memory value after,
      evaluate ask (Setting.ofValue document) memory = (.ok value, after) →
      (Value.valueAt keys document = some (.string (themeCall path)) →
        if path.toList.all Setting.isReferenceChar then
          ∃ start found stop, ask path start = (.ok (some found), stop) ∧
            Value.valueAt keys value = some found
        else Value.valueAt keys value = some (.string (themeCall path))) ∧
      ∀ items, Value.valueAt keys document = some (.array items) →
        Value.valueAt keys value = some (.array items)) ∧
    (path.toList.all Setting.isReferenceChar → ∀ tokens stack theme,
      (∀ layer ∈ stack, ∃ document, layer.config = Setting.ofValue document) →
      ofTokens tokens stack = .ok theme →
      themeCall path ∈ (Value.table theme.entries).strings →
      themeCall path ∈ tokens.entries.map Prod.snd ∨
        ∃ layer ∈ stack, ∃ part items, layer.config.get? themeEntry = some part ∧
          .array items ∈ part.literals ∧ themeCall path ∈ (Value.array items).strings) := by
  have called : Setting.ofValue (.string (themeCall path)) =
      if path.toList.all Setting.isReferenceChar then .deferred (.reference path)
      else .literal (.string (themeCall path)) := by
    rw [Setting.ofValue, referencePath?_of_split accepted unquoted trimmed]
    split_ifs <;> rfl
  refine ⟨fun document keys found => ?_, fun ask document keys memory value after evaluated =>
    ⟨fun found => ?_, fun items found => ?_⟩, fun plain tokens stack theme documents resolved => ?_⟩
  · rw [Setting.settingAt_ofValue, found, Option.map_some, called]
  · obtain ⟨start, inner, stop, own, there⟩ := evaluate_ofValue found evaluated
    rw [called] at own
    split_ifs at own ⊢ with plain
    · exact ⟨start, inner, stop, evaluate_reference_eq_ok own, there⟩
    · rw [there, evaluate_literal own]
  · obtain ⟨start, inner, stop, own, there⟩ := evaluate_ofValue found evaluated
    rw [there, evaluate_literal own]
  · intro shown
    by_contra absent
    rw [not_or] at absent
    obtain ⟨unset, unheld⟩ := absent
    have references : ∀ layer ∈ stack, layer.config.Refers fun _ => True := fun layer member => by
      obtain ⟨document, isDocument⟩ := documents layer member
      exact isDocument ▸ Setting.refers_ofValue document
    have reads : Setting.referencePath? (themeCall path) ≠ none := by
      rw [referencePath?_of_split accepted unquoted trimmed, if_pos plain]
      exact Option.some_ne_none path
    have sections : ∀ layer ∈ stack, ∀ part, layer.config.get? themeEntry = some part →
        part.Literally (· ≠ themeCall path) := by
      rintro layer member part isTheme value literal text inside rfl
      obtain ⟨document, isDocument⟩ := documents layer member
      obtain ⟨inner, -, rfl⟩ := Setting.exists_of_get?_ofValue (isDocument ▸ isTheme)
      obtain ⟨items, rfl⟩ := Setting.literals_ofValue inner value literal _ inside reads
      exact unheld ⟨layer, member, _, items, isTheme, literal, inside⟩
    have only : (Value.table theme.entries).Only (· ≠ themeCall path) :=
      only_of_resolved references (fun text member same => unset (same ▸ member)) sections resolved
    exact only _ shown rfl

def callDocument : Value :=
  .table [("theme", .table [("gap", .string (themeCall "spacing[2.5]")),
    ("ring", .string (themeCall "colors.red"))])]

theorem themeCall_followed_callDocument :
    splitKeyPath "spacing[2.5]" = .ok ["spacing", "2.5"] ∧
    Setting.settingAt ["theme", "gap"] (Setting.ofValue callDocument) =
      some (.literal (.string (themeCall "spacing[2.5]"))) ∧
    Setting.settingAt ["theme", "ring"] (Setting.ofValue callDocument) =
      some (.deferred (.reference "colors.red")) ∧
    ∃ theme, ofTokens ⟨[("--color-red", "red")]⟩ [Layer.ofValue callDocument ⟨"."⟩] = .ok theme ∧
      themeCall "colors.red" ∉ (Value.table theme.entries).strings := by
  have bracketed : splitKeyPath "spacing[2.5]" = .ok ["spacing", "2.5"] :=
    splitKeyPath_eq_ok_iff.2 ⟨[['s', 'p', 'a', 'c', 'i', 'n', 'g'], ['2', '.', '5']], by decide +kernel,
      by decide +kernel, by decide +kernel⟩
  have pointed : splitKeyPath "colors.red" = .ok ["colors", "red"] :=
    splitKeyPath_eq_ok_iff.2 ⟨[['c', 'o', 'l', 'o', 'r', 's'], ['r', 'e', 'd']], by decide +kernel,
      by decide +kernel, by decide +kernel⟩
  have trimmed : Text.Trimmed "spacing[2.5]".toList ∧ Text.Trimmed "colors.red".toList :=
    ⟨⟨by simp; decide, by simp; decide⟩, by simp; decide, by simp; decide⟩
  have gap := (themeCall_followed bracketed (by simp [isQuote]) trimmed.1).1 callDocument
    ["theme", "gap"] (by simp [callDocument, Table.get?])
  have ring := themeCall_followed pointed (by simp [isQuote]) trimmed.2
  have isRing := ring.1 callDocument ["theme", "ring"] (by simp [callDocument, Table.get?])
  rw [if_neg (by decide +kernel)] at gap
  rw [if_pos (by decide +kernel)] at isRing
  refine ⟨bracketed, gap, isRing, ?_⟩
  have texts : textsAt ⟨[("--color-red", "red")]⟩ [Layer.ofValue callDocument ⟨"."⟩] ["ring"] =
      some [some "red"] := by decide +kernel
  obtain ⟨theme, resolved, -⟩ := exists_of_textsAt texts
  refine ⟨theme, resolved, fun shown => ?_⟩
  have documents : ∀ layer ∈ [Layer.ofValue callDocument ⟨"."⟩],
      ∃ document, layer.config = Setting.ofValue document := by
    simpa using ⟨callDocument, rfl⟩
  rcases ring.2.2 (by decide +kernel) _ _ theme documents resolved shown with token | held
  · exact absurd token (by decide +kernel)
  · have literal : Setting.referencePath? (themeCall "spacing[2.5]") = none := by decide +kernel
    have reference : Setting.referencePath? (themeCall "colors.red") = some "colors.red" := by
      decide +kernel
    simp [Layer.ofValue, callDocument, Setting.ofValue, Setting.ofEntries, literal, reference,
      themeEntry, Setting.get?, Setting.entries?, Table.get?, Setting.literals,
      Setting.entryLiterals] at held

end UtilityCss.Theme
