import UtilityCss.Proofs.Config.Removal
import UtilityCss.Proofs.Theme.Likeness
import UtilityCss.Proofs.Theme.Outcome

set_option autoImplicit false

namespace UtilityCss.Theme

open UtilityCss.Config
open Relation

namespace Plan

variable {α β γ : Type}

theorem andThen_assoc (plan : Plan α) (next : α → Plan β) (last : β → Plan γ) :
    (plan.andThen next).andThen last = plan.andThen fun value => (next value).andThen last := by
  induction plan with
  | done value => rfl
  | fail error => rfl
  | ask path more ih => exact congrArg (Plan.ask path) (funext fun found => ih found)

def said (key : String) (part : Table Setting) : Option Setting × Option Setting :=
  (definition? key part, addition? key part)

theorem ofSections_congr {key : String} {sections others : List (Table Setting)}
    (same : sections.map (said key) = others.map (said key)) (running : Option Value) :
    ofSections key sections running = ofSections key others running := by
  induction sections generalizing others running with
  | nil =>
    rw [List.map_nil, eq_comm, List.map_eq_nil_iff] at same
    rw [same]
  | cons part rest ih =>
    cases others with
    | nil => simp at same
    | cons other others =>
      simp only [List.map_cons, List.cons.injEq, said, Prod.mk.injEq] at same
      obtain ⟨⟨defined, added⟩, later⟩ := same
      simp only [ofSections, defined, added, ih later]

theorem ofSections_append (key : String) (sections others : List (Table Setting))
    (running : Option Value) :
    ofSections key (sections ++ others) running =
      (ofSections key sections running).andThen (ofSections key others) := by
  induction sections generalizing running with
  | nil => rfl
  | cons part rest ih =>
    simp only [List.cons_append, ofSections, andThen_assoc, ih]

theorem ofSetting?_some (combine : Option Value → Value → Value) (running : Option Value)
    (setting : Setting) (next : Option Value → Plan β) :
    (ofSetting? combine running (some setting)).andThen next =
      (ofSetting setting).andThen fun value => next (some (combine running value)) := by
  rw [ofSetting?, andThen_assoc]
  rfl

theorem ofSections_of_defined {key : String} {sections : List (Table Setting)}
    (defined : ∃ part ∈ sections, (definition? key part).isSome) (running other : Option Value) :
    ofSections key sections running = ofSections key sections other := by
  induction sections generalizing running other with
  | nil => simp at defined
  | cons part rest ih =>
    cases own : definition? key part with
    | some setting => simp only [ofSections, own, ofSetting?_some]
    | none =>
      have later : ∃ part ∈ rest, (definition? key part).isSome := by simpa [own] using defined
      cases added : addition? key part with
      | none => simpa [ofSections, own, added, ofSetting?, andThen] using ih later running other
      | some setting =>
        simp only [ofSections, own, added]
        change (ofSetting? Value.extendWith running (some setting)).andThen _ =
          (ofSetting? Value.extendWith other (some setting)).andThen _
        rw [ofSetting?_some, ofSetting?_some]
        exact congrArg (fun next => (ofSetting setting).andThen next)
          (funext fun value => ih later _ _)

def ofSettings (key : String) (settings : List Setting) : Plan (List (String × Value)) :=
  ofEntries (settings.map fun setting => (key, setting))

theorem ofSettings_append (key : String) (settings others : List Setting) (next : Plan β) :
    ((ofSettings key (settings ++ others)).andThen fun _ => next) =
      (ofSettings key settings).andThen fun _ => (ofSettings key others).andThen fun _ => next := by
  induction settings with
  | nil => rfl
  | cons setting rest ih =>
    simp only [ofSettings, List.cons_append, List.map_cons, ofEntries, andThen_assoc, andThen]
      at ih ⊢
    simp only [ih]

theorem ofSetting?_andThen (key : String) (combine : Option Value → Value → Value)
    (running : Option Value) (setting : Option Setting) (next : Plan β) :
    ((ofSetting? combine running setting).andThen fun _ => next) =
      (ofSettings key setting.toList).andThen fun _ => next := by
  cases setting with
  | none => rfl
  | some setting =>
    rw [ofSetting?_some]
    simp only [ofSettings, Option.toList_some, List.map_cons, List.map_nil, ofEntries,
      andThen_assoc, andThen]

def settingsIn (key : String) (part : Table Setting) : List Setting :=
  (definition? key part).toList ++ (addition? key part).toList

theorem ofSections_cons_of_defined {key : String} {part : Table Setting}
    {sections : List (Table Setting)} (defined : ∃ part ∈ sections, (definition? key part).isSome)
    (running : Option Value) :
    ofSections key (part :: sections) running =
      (ofSettings key (settingsIn key part)).andThen fun _ => ofSections key sections none := by
  have forgets : ofSections key sections = fun _ => ofSections key sections none :=
    funext fun value => ofSections_of_defined defined value none
  rw [settingsIn, ofSettings_append, ← ofSetting?_andThen key (fun _ value => value) running,
    ofSections, forgets]
  exact congrArg (fun next => (ofSetting? (fun _ value => value) running _).andThen next)
    (funext fun value => ofSetting?_andThen key _ _ _ _)

end Plan

namespace Basis

variable {r also : Basis} {key other : String} {part : Table Setting}
  {first last : List (Table Setting)} {known : Table (Option Value)} {m : Memory}

def LedTo (r : Basis) (key : String) (paths : List String) (other : String) : Prop :=
  ∃ path ∈ paths, ∃ next, r.readKey? path = some next ∧ next ≠ key ∧
    ReflTransGen r.Reads next other

/-- Neither some paths under a key nor the references of keys that they lead to are ones to a
namespace whose key is computed from there. -/
structure Isolated (r : Basis) (key : String) (paths : List String) : Prop where
  own : ∀ path ∈ paths, r.Early key path
  led : ∀ other, r.LedTo key paths other → ∀ path ∈ r.pathsOf other, r.Early other path

section

open Classical in
noncomputable def ledFrom (r : Basis) (key : String) (paths : List String)
    (known : Table (Option Value)) : Table (Option Value) :=
  known.filter fun entry => decide (r.LedTo key paths entry.1)

variable {paths : List String} {value : Option Value}

open Classical in
theorem get?_ledFrom (r : Basis) (key : String) (paths : List String)
    (known : Table (Option Value)) (other : String) :
    Table.get? other (r.ledFrom key paths known) =
      if r.LedTo key paths other then Table.get? other known else none := by
  have filtered := Table.get?_filter (fun next => decide (r.LedTo key paths next)) other known
  simpa [ledFrom] using filtered

theorem get?_ledFrom_of_ledTo (leads : r.LedTo key paths other) :
    Table.get? other (r.ledFrom key paths known) = Table.get? other known := by
  rw [get?_ledFrom, if_pos leads]

theorem get?_ledFrom_of_absent (absent : Table.get? other known = none) :
    Table.get? other (r.ledFrom key paths known) = none := by
  rw [get?_ledFrom, absent, ite_self]

theorem get?_of_ledFrom (found : Table.get? other (r.ledFrom key paths known) = some value) :
    Table.get? other known = some value := by
  rw [get?_ledFrom] at found
  split_ifs at found
  exact found

open Classical in
theorem Isolated.replayable (isolated : r.Isolated key paths) (settled : r.Settled known)
    (only : r.OnlyReferences) : r.Replayable (r.ledFrom key paths known) := by
  refine settled.replayable only
    fun next (kept : (fun next => decide (r.LedTo key paths next)) next = true) path member => ?_
  have leads : r.LedTo key paths next := by simpa using kept
  refine ⟨isolated.led next leads path member, ?_⟩
  intro later read _
  obtain ⟨start, inside, middle, isMiddle, different, reaches⟩ := leads
  have further : r.LedTo key paths later :=
    ⟨start, inside, middle, isMiddle, different, reaches.tail ⟨path, member, read⟩⟩
  simpa using further

end

structure Dropped (r also : Basis) (key : String) (first : List (Table Setting))
    (part : Table Setting) (last : List (Table Setting)) : Prop where
  tokens : also.tokens = r.tokens
  sections : r.sections = first ++ part :: last
  sectionsAlso : also.sections = first ++ sectionWithout key part :: last
  ordinary : key ≠ extendEntry
  unreserved : extendEntry ∉ r.configKeys
  replaced : ∃ later ∈ last, (definition? key later).isSome
  only : r.OnlyReferences
  onlyAlso : also.OnlyReferences

namespace Dropped

theorem mem_sectionKeys_last (dropped : Dropped r also key first part last) :
    ∃ later ∈ last, key ∈ sectionKeys later := by
  obtain ⟨later, member, defined⟩ := dropped.replaced
  exact ⟨later, member, mem_sectionKeys.2 (.inl ⟨dropped.ordinary, defined⟩)⟩

theorem configured (dropped : Dropped r also key first part last) : key ∈ r.configKeys := by
  obtain ⟨later, member, isKey⟩ := dropped.mem_sectionKeys_last
  rw [mem_configKeys, dropped.sections]
  exact ⟨later, by simp [member], isKey⟩

theorem mem_sectionKeys_iff (dropped : Dropped r also key first part last) (other : String)
    (different : other ≠ key) :
    other ∈ sectionKeys (sectionWithout key part) ↔ other ∈ sectionKeys part := by
  rw [mem_sectionKeys, mem_sectionKeys, addition?_sectionWithout other part dropped.ordinary,
    if_neg different]
  by_cases reserved : other = extendEntry
  · simp [reserved]
  · rw [definition?_sectionWithout part reserved, if_neg different]

theorem sameKeys (dropped : Dropped r also key first part last) : SameKeys r also where
  tokens := dropped.tokens
  configKeys := by
    apply Ordered.ofList_eq_of_mem_iff
    intro other
    rw [dropped.sections, dropped.sectionsAlso]
    simp only [List.flatMap_append, List.flatMap_cons, List.mem_append, List.mem_flatMap]
    by_cases same : other = key
    · subst same
      have later := dropped.mem_sectionKeys_last
      simp only [later, or_true]
    · rw [dropped.mem_sectionKeys_iff other same]

theorem planOf_eq (dropped : Dropped r also key first part last) (configured : other ∈ r.configKeys)
    (different : other ≠ key) : also.planOf other = r.planOf other := by
  have ordinary : other ≠ extendEntry := fun same => dropped.unreserved (same ▸ configured)
  unfold planOf
  rw [dropped.sections, dropped.sectionsAlso]
  refine Plan.ofSections_congr ?_ none
  simp only [List.map_append, List.map_cons, Plan.said, definition?_sectionWithout part ordinary,
    addition?_sectionWithout other part dropped.ordinary, if_neg different]

theorem planOf_whole (dropped : Dropped r also key first part last) :
    r.planOf key = (Plan.ofSections key first none).andThen fun _ =>
      (Plan.ofSettings key (Plan.settingsIn key part)).andThen fun _ =>
        Plan.ofSections key last none := by
  rw [planOf, dropped.sections, Plan.ofSections_append]
  exact congrArg (fun next => (Plan.ofSections key first none).andThen next)
    (funext fun running => Plan.ofSections_cons_of_defined dropped.replaced running)

theorem planOf_rest (dropped : Dropped r also key first part last) :
    also.planOf key = (Plan.ofSections key first none).andThen fun _ =>
      Plan.ofSections key last none := by
  rw [planOf, dropped.sectionsAlso, Plan.ofSections_append]
  refine congrArg (fun next => (Plan.ofSections key first none).andThen next)
    (funext fun running => ?_)
  rw [Plan.ofSections, definition?_sectionWithout part dropped.ordinary,
    addition?_sectionWithout key part dropped.ordinary, if_pos rfl, if_pos rfl]
  exact Plan.ofSections_of_defined dropped.replaced running none

theorem mem_settingsFor (dropped : Dropped r also key first part last) {setting : Setting}
    (member : setting ∈ Plan.settingsFor key first ∨ setting ∈ Plan.settingsIn key part ∨
      setting ∈ Plan.settingsFor key last) : setting ∈ Plan.settingsFor key r.sections := by
  rw [dropped.sections, Plan.settingsFor, List.flatMap_append, List.flatMap_cons]
  simpa [Plan.settingsFor, Plan.settingsIn, or_assoc] using member

theorem mem_pathsOf (dropped : Dropped r also key first part last) {path : String}
    (member : path ∈ (Plan.settingsIn key part).flatMap Setting.paths) : path ∈ r.pathsOf key := by
  obtain ⟨setting, inside, isPath⟩ := List.mem_flatMap.1 member
  exact List.mem_flatMap.2 ⟨setting, dropped.mem_settingsFor (.inr (.inl inside)), isPath⟩

theorem refersPart (dropped : Dropped r also key first part last) :
    (Plan.ofSettings key (Plan.settingsIn key part)).Refers (· ∈ r.pathsOf key) := by
  apply Plan.refers_ofEntries _
  intro entry member
  obtain ⟨setting, inside, rfl⟩ := List.mem_map.1 member
  exact dropped.only.setting (dropped.mem_settingsFor (.inr (.inl inside)))

theorem drops (dropped : Dropped r also key first part last)
    (computed : ∃ values, (Plan.ofSettings key (Plan.settingsIn key part)).answered
      (r.shown known) = .ok values)
    (reads : ∀ path ∈ (Plan.ofSettings key (Plan.settingsIn key part)).asked (r.shown known),
      ∀ next, r.readKey? path = some next →
        (Table.get? next known).isSome ∨ r.IsRaw path ∧ next = key) :
    Drops r also known key (Plan.ofSections key first none)
      (Plan.ofSettings key (Plan.settingsIn key part)) (Plan.ofSections key last none) where
  whole := dropped.planOf_whole
  rest := dropped.planOf_rest
  refersFirst := Plan.refers_ofSections
    (fun _ member => dropped.only.setting (dropped.mem_settingsFor (.inl member))) none
  refersPart := dropped.refersPart
  refersLast := Plan.refers_ofSections
    (fun _ member => dropped.only.setting (dropped.mem_settingsFor (.inr (.inr member)))) none
  computed := computed
  reads := reads

theorem mem_paths_of_asked (dropped : Dropped r also key first part last)
    {value? : String → Option Value} {path : String}
    (member : path ∈ (Plan.ofSettings key (Plan.settingsIn key part)).asked value?) :
    path ∈ (Plan.settingsIn key part).flatMap Setting.paths := by
  refine (Plan.refers_ofEntries _ fun entry inside => ?_).asked value? path member
  obtain ⟨setting, isSetting, rfl⟩ := List.mem_map.1 inside
  have whole := dropped.only key setting (dropped.mem_settingsFor (.inr (.inl isSetting)))
  exact whole.mono fun path isPath _ => List.mem_flatMap.2 ⟨setting, isSetting, isPath⟩

theorem get?_ledFrom_of_asked (dropped : Dropped r also key first part last)
    (absent : Table.get? key known = none)
    (reads : ∀ path ∈ (Plan.ofSettings key (Plan.settingsIn key part)).asked (r.shown known),
      ∀ next, r.readKey? path = some next →
        (Table.get? next known).isSome ∨ r.IsRaw path ∧ next = key) :
    ∀ path ∈ (Plan.ofSettings key (Plan.settingsIn key part)).asked (r.shown known),
      ∀ next, r.readKey? path = some next →
        Table.get? next (r.ledFrom key ((Plan.settingsIn key part).flatMap Setting.paths) known) =
          Table.get? next known := by
  intro path member next read
  rcases reads path member next read with found | ⟨-, rfl⟩
  · apply get?_ledFrom_of_ledTo
    refine ⟨path, dropped.mem_paths_of_asked member, next, read, ?_, .refl⟩
    rintro rfl
    simp [absent] at found
  · -- The key itself is still being computed when its own settings are asked for.
    rw [absent, get?_ledFrom_of_absent absent]

theorem similar (dropped : Dropped r also key first part last)
    (isolated : r.Isolated key ((Plan.settingsIn key part).flatMap Setting.paths))
    (settled : r.Settled known) (absent : Table.get? key known = none)
    {values : List (String × Value)}
    (computed : (Plan.ofSettings key (Plan.settingsIn key part)).answered (r.shown known) =
      .ok values)
    (reads : ∀ path ∈ (Plan.ofSettings key (Plan.settingsIn key part)).asked (r.shown known),
      ∀ next, r.readKey? path = some next →
        (Table.get? next known).isSome ∨ r.IsRaw path ∧ next = key) :
    ∃ listed, Similar r also listed := by
  have same := dropped.get?_ledFrom_of_asked absent reads
  have agree := answered_of_reads same
  have replayable := isolated.replayable settled dropped.only
  have configured := settled.configured
  have plans : ∀ other value, Table.get? other
      (r.ledFrom key ((Plan.settingsIn key part).flatMap Setting.paths) known) = some value →
        also.planOf other = r.planOf other := by
    intro other value found
    have isFound := get?_of_ledFrom found
    apply dropped.planOf_eq (configured other value isFound)
    rintro rfl
    simp [absent] at isFound
  refine ⟨_, dropped.sameKeys, dropped.only, dropped.onlyAlso, replayable,
    replayable.transfer dropped.sameKeys plans,
    fun other value found => configured other value (get?_of_ledFrom found), ?_⟩
  intro other isConfigured notListed
  by_cases isKey : other = key
  · subst isKey
    refine .inr ⟨_, _, _, dropped.drops ⟨values, agree.1 ▸ computed⟩ ?_⟩
    intro path member next read
    rw [← agree.2] at member
    rw [same path member next read]
    exact reads path member next read
  · exact .inl (dropped.planOf_eq isConfigured isKey)

theorem similar_of_collected (dropped : Dropped r also key first part last)
    (isolated : r.Isolated key ((Plan.settingsIn key part).flatMap Setting.paths))
    {entries : Table Value} (collected : (r.collect r.keys Memory.empty).1 = .ok entries) :
    ∃ listed, Similar r also listed := by
  obtain ⟨tracks, grows, shows⟩ := collect_shows dropped.only r.keys (tracks_empty r) rfl
  -- The key was settled from the keys that were finished before it.
  have configured := dropped.configured
  have isListed := listed_of_decides tracks.valid grows.chain
    ((shows entries collected).2 key (mem_keys_of_mem_configKeys configured))
    (layerKey?_self configured)
  obtain ⟨value, found⟩ := Option.isSome_iff_exists.1 isListed
  obtain ⟨answered, reads⟩ := tracks.settled.answered dropped.only found
  rw [dropped.planOf_whole] at answered
  obtain ⟨-, -, rest, -⟩ := Plan.answered_andThen_ok answered
  obtain ⟨values, computed, -, -⟩ := Plan.answered_andThen_ok rest
  refine dropped.similar isolated (tracks.settled.behind key)
    (Table.get?_behind_self (Memory.distinct_settled tracks.valid)) computed ?_
  intro path member next read
  have inside := dropped.mem_paths_of_asked member
  rcases reads path (dropped.mem_pathsOf inside) next read with listed | ⟨raw, leads⟩
  · exact .inl listed
  · exact .inr ⟨raw, isolated.own path inside next read raw leads⟩

theorem similar_of_evaluated (dropped : Dropped r also key first part last)
    (isolated : r.Isolated key ((Plan.settingsIn key part).flatMap Setting.paths))
    {values : List (String × Value)}
    (evaluated : (evaluateEntries r.get ((Plan.settingsIn key part).map fun setting =>
      (key, setting)) (Memory.empty.enter key)).1 = .ok values) :
    ∃ listed, Similar r also listed := by
  have start : r.Tracks (Memory.empty.enter key) :=
    (tracks_empty r).enter (Memory.progress?_empty key) dropped.configured (by simp [Memory.empty])
  have alone : (Memory.empty.enter key).chain = [] ++ [key] := rfl
  obtain ⟨tracks, grows, explained⟩ := run_shows (fun path member middle tracks same =>
    (ask_shows dropped.only r.depth member tracks (same.trans alone)).2) _ dropped.refersPart
      start rfl
  rw [evaluateEntries_eq] at evaluated
  obtain ⟨computed, decides⟩ := explained values evaluated _ tracks (.refl _)
  have chain := grows.chain.trans alone
  refine dropped.similar isolated tracks.settled ?_ computed fun path member next read => ?_
  · exact get?_settled_of_entered tracks.valid ((tracks.valid.entered key).2 (by simp [chain]))
  · obtain ⟨segment, isFirst, layers⟩ := Option.bind_eq_some_iff.1 read
    rcases decides path member segment isFirst next layers with ⟨value, finished⟩ | ⟨raw, entered⟩
    · rw [(Memory.get?_settled tracks.valid).2 finished]
      exact .inl rfl
    · have inside := (tracks.valid.entered next).1 entered
      rw [chain] at inside
      exact .inr ⟨⟨segment, next, isFirst, layers, raw⟩, by simpa using inside⟩

theorem collect_eq (dropped : Dropped r also key first part last)
    (isolated : r.Isolated key ((Plan.settingsIn key part).flatMap Setting.paths))
    (computes : (r.collect r.keys Memory.empty).1.isOk ∨
      (evaluateEntries r.get ((Plan.settingsIn key part).map fun setting => (key, setting))
        (Memory.empty.enter key)).1.isOk) :
    (also.collect also.keys Memory.empty).1 = (r.collect r.keys Memory.empty).1 := by
  obtain ⟨listed, similar⟩ : ∃ listed, Similar r also listed := by
    rcases computes with collected | evaluated
    · obtain ⟨entries, found⟩ := exists_of_isOk collected
      exact dropped.similar_of_collected isolated found
    · obtain ⟨values, found⟩ := exists_of_isOk evaluated
      exact dropped.similar_of_evaluated isolated found
  have nothing : Consistent listed Memory.empty := fun _ _ _ => .inl rfl
  rw [dropped.sameKeys.keys]
  exact similar.collect r.keys ⟨rfl, fun _ _ => rfl, nothing, nothing⟩ (tracks_empty r) rfl

end Dropped

end Basis

theorem Basis.sectionsOf_without (before after : Stack) (layer : Layer) {key : String}
    (ordinary : key ≠ extendEntry) :
    (∃ error, sectionsOf 0 (before ++ layer :: after) = .error error ∧
      sectionsOf 0 (before ++ layer.without key :: after) = .error error) ∨
    ∃ first own last, layer.theme before.length = .ok own ∧
      sectionsOf (before.length + 1) after = .ok last ∧
      sectionsOf 0 (before ++ layer :: after) = .ok (first ++ (own.toList ++ last)) ∧
      sectionsOf 0 (before ++ layer.without key :: after) =
        .ok (first ++ ((own.map (sectionWithout key)).toList ++ last)) := by
  rw [sectionsOf_append, sectionsOf_append, Nat.zero_add, sectionsOf, sectionsOf,
    Layer.theme_without layer before.length ordinary]
  cases sectionsOf 0 before with
  | error error => exact .inl ⟨error, rfl, rfl⟩
  | ok first =>
    cases layer.theme before.length with
    | error error => exact .inl ⟨error, rfl, rfl⟩
    | ok own =>
      cases sectionsOf (before.length + 1) after with
      | error error => exact .inl ⟨error, rfl, rfl⟩
      | ok last => exact .inr ⟨first, own, last, rfl, rfl, rfl, rfl⟩

theorem ofTokens_of_sections (tokens : Tokens) {stack : Stack} {sections : List (Table Setting)}
    (found : Basis.sectionsOf 0 stack = .ok sections) :
    Basis.ofLayers tokens stack = .ok ⟨tokens, sections⟩ ∧
      ofTokens tokens stack =
        ((Basis.collect ⟨tokens, sections⟩ (Basis.keys ⟨tokens, sections⟩) Memory.empty).1).map
          Theme.mk := by
  have isBasis : Basis.ofLayers tokens stack = .ok ⟨tokens, sections⟩ := by
    rw [Basis.ofLayers, found]
    rfl
  refine ⟨isBasis, ?_⟩
  rw [ofTokens, isBasis]

theorem Basis.dropped_of_without (tokens : Tokens) {before after : Stack} {layer : Layer}
    {key : String} {first last : List (Table Setting)} {part : Table Setting}
    (references : ∀ other ∈ before ++ layer :: after, other.config.Refers fun _ => True)
    (ordinary : key ≠ extendEntry)
    (unreserved : ∀ other ∈ before ++ layer :: after,
      other.config.settingAt [themeEntry, extendEntry, extendEntry] = none)
    (replaced : ∃ later ∈ after, (later.config.settingAt [themeEntry, key]).isSome)
    (isLast : sectionsOf (before.length + 1) after = .ok last)
    (whole : sectionsOf 0 (before ++ layer :: after) = .ok (first ++ part :: last))
    (rest : sectionsOf 0 (before ++ layer.without key :: after) =
      .ok (first ++ sectionWithout key part :: last)) :
    Dropped ⟨tokens, first ++ part :: last⟩ ⟨tokens, first ++ sectionWithout key part :: last⟩
      key first part last where
  tokens := rfl
  sections := rfl
  sectionsAlso := rfl
  ordinary := ordinary
  unreserved := by
    -- The name of the additions is a key only if a layer adds to that name.
    intro reserved
    obtain ⟨other, member, isKey⟩ := mem_configKeys.1 reserved
    obtain ⟨owner, inside, isSection⟩ := mem_sectionsOf whole other member
    have none := unreserved owner inside
    rw [settingAt_addition isSection] at none
    simp [mem_sectionKeys, none] at isKey
  replaced := by
    obtain ⟨later, inside, defined⟩ := replaced
    obtain ⟨other, isSection⟩ := exists_section_of_settingAt defined
    rw [settingAt_definition isSection] at defined
    exact ⟨other, part_mem_sectionsOf isLast inside isSection, defined⟩
  only := refers_of_stack (ofTokens_of_sections tokens whole).1 references
  onlyAlso := by
    apply refers_of_stack (ofTokens_of_sections tokens rest).1
    intro other member
    simp only [List.mem_append, List.mem_cons] at references member
    rcases member with inside | rfl | inside
    · exact references other (.inl inside)
    · exact Layer.refers_without key (references layer (.inr (.inl rfl)))
    · exact references other (.inr (.inr inside))

/-- Taking a definition that a later layer replaces, and the addition next to it, out of a layer
changes nothing, if they can be computed and no namespace is read too early in the course of it. -/
theorem ofTokens_without {tokens : Tokens} {before after : Stack} {layer : Layer} {key : String}
    (references : ∀ other ∈ before ++ layer :: after, other.config.Refers fun _ => True)
    (ordinary : key ≠ extendEntry)
    (unreserved : ∀ other ∈ before ++ layer :: after,
      other.config.settingAt [themeEntry, extendEntry, extendEntry] = none)
    (replaced : ∃ later ∈ after, (later.config.settingAt [themeEntry, key]).isSome)
    (isolated : ∀ r, Basis.ofLayers tokens (before ++ layer :: after) = .ok r →
      r.Isolated key ((layer.settingsOf key).flatMap Setting.paths))
    (computes : ∀ r, Basis.ofLayers tokens (before ++ layer :: after) = .ok r →
      (ofTokens tokens (before ++ layer :: after)).isOk ∨
        (evaluateEntries r.get ((layer.settingsOf key).map fun setting => (key, setting))
          (Memory.empty.enter key)).1.isOk) :
    ofTokens tokens (before ++ layer.without key :: after) =
      ofTokens tokens (before ++ layer :: after) := by
  rcases Basis.sectionsOf_without before after layer ordinary with
    ⟨error, whole, rest⟩ | ⟨first, _ | part, last, isOwn, isLast, whole, rest⟩
  · rw [ofTokens, ofTokens, Basis.ofLayers, Basis.ofLayers, whole, rest]
  · -- The layer has no theme section.
    rw [(ofTokens_of_sections tokens whole).2, (ofTokens_of_sections tokens rest).2]
    rfl
  · simp only [Option.map_some, Option.toList_some, List.singleton_append] at whole rest
    obtain ⟨isBasis, outcome⟩ := ofTokens_of_sections tokens whole
    obtain ⟨isAlso, outcomeAlso⟩ := ofTokens_of_sections tokens rest
    have isTheme := Layer.theme_eq_some isOwn
    have settings : layer.settingsOf key = Plan.settingsIn key part := by
      rw [Layer.settingsOf, settingAt_definition isTheme, settingAt_addition isTheme,
        Plan.settingsIn]
    have dropped := Basis.dropped_of_without tokens references ordinary unreserved replaced
      isLast whole rest
    have alone := isolated _ isBasis
    have either := computes _ isBasis
    rw [settings] at alone either
    rw [outcome, isOk_map] at either
    rw [outcome, outcomeAlso, dropped.collect_eq alone either]

theorem Basis.isolated_of_plain {tokens : Tokens} {stack : Stack} {r : Basis} {layer : Layer}
    (found : Basis.ofLayers tokens stack = .ok r) (plain : ∀ other ∈ stack, other.config.Refers Plain)
    (member : layer ∈ stack) (key : String) :
    r.Isolated key ((layer.settingsOf key).flatMap Setting.paths) where
  own path inside other _ raw := by
    obtain ⟨setting, isSetting, isPath⟩ := List.mem_flatMap.1 inside
    have refers := Layer.refers_settingsOf (plain layer member) isSetting
    exact absurd raw (not_raw_of_plain (refers.path isPath))
  led other _ path inside next _ raw :=
    absurd raw (not_raw_of_plain (plain_of_stack found plain other path inside))

def outdated : Layer :=
  .ofTheme [("extend", .table [("ring", .deferred (.reference "colors.red"))]),
    ("ring", .deferred (.reference "accent"))]

def ringed : Layer :=
  .ofTheme [("accent", .deferred (.reference "colors.red")),
    ("colors", .table [("red", .ofText "crimson")]), ("ring", .ofText "wide")]

theorem plain_outdated : ∀ layer ∈ [outdated, ringed], layer.config.Refers Plain := by
  have first : firstSegment? "colors.red" = some "colors" := by decide +kernel
  have second : firstSegment? "accent" = some "accent" := by decide +kernel
  have colors : Plain "colors.red" := plain_of_first first (by decide +kernel)
  have accent : Plain "accent" := plain_of_first second (by decide +kernel)
  simp [outdated, ringed, Layer.ofTheme, Setting.Refers, Setting.deferredValues,
    Setting.deferredEntries, Setting.ofText, colors, accent]

theorem outdated_without :
    textsAt ⟨[("--color-red", "red")]⟩ [outdated, ringed] ["ring", "accent"] =
        some [some "wide", some "crimson"] ∧
      ofTokens ⟨[("--color-red", "red")]⟩ [outdated.without "ring", ringed] =
        ofTokens ⟨[("--color-red", "red")]⟩ [outdated, ringed] := by
  have texts : textsAt ⟨[("--color-red", "red")]⟩ [outdated, ringed] ["ring", "accent"] =
      some [some "wide", some "crimson"] := by decide +kernel
  have resolves : (ofTokens ⟨[("--color-red", "red")]⟩ [outdated, ringed]).isOk := by
    decide +kernel
  have references : ∀ layer ∈ [outdated, ringed], layer.config.Refers fun _ => True :=
    fun layer member => (plain_outdated layer member).mono fun _ _ _ => trivial
  refine ⟨texts, @ofTokens_without _ [] [ringed] outdated "ring" references (by decide) ?_ ?_
    (fun r isBasis => Basis.isolated_of_plain isBasis plain_outdated (by simp) "ring")
    (fun r _ => .inl resolves)⟩
  · intro other member
    simp only [List.nil_append, List.mem_cons, List.not_mem_nil, or_false] at member
    rcases member with rfl | rfl <;> rfl
  · exact ⟨ringed, by simp, rfl⟩

def dangling : Layer := .ofTheme [("ring", .deferred (.reference "nope"))]

def leading : Layer := .ofTheme [("colors", .deferred (.reference "zeta"))]

def reading : Layer :=
  .ofTheme [("colors", .table [("blue", .ofText "blue")]), ("zeta", .deferred (.reference "color"))]

def adding : Layer :=
  .ofTheme [("extend", .table [("extend", .table []), ("ring", .ofText "narrow")])]

theorem replaced_definitions_remain :
    (∀ later ∈ [ringed, reading], later.config.Refers fun _ => True) ∧
      (∀ layer ∈ [dangling, leading, adding], layer.config.Refers fun _ => True) ∧
      ¬ (ofTokens .empty [dangling, ringed]).isOk ∧
      (ofTokens .empty [dangling.without "ring", ringed]).isOk ∧
      textsAt ⟨[("--color-red", "red")]⟩ [leading, reading] ["zeta.blue"] = some [none] ∧
      textsAt ⟨[("--color-red", "red")]⟩ [leading.without "colors", reading] ["zeta.blue"] =
        some [some "blue"] ∧
      textsAt .empty [adding, ringed] ["extend.ring"] = some [some "narrow"] ∧
      textsAt .empty [adding.without "ring", ringed] ["extend.ring"] = some [none] := by
  refine ⟨?_, ?_, ?_, ?_, ?_, ?_, ?_, ?_⟩
  · simp [ringed, reading, Layer.ofTheme, Setting.Refers, Setting.deferredValues,
      Setting.deferredEntries, Setting.ofText]
  · simp [dangling, leading, adding, Layer.ofTheme, Setting.Refers, Setting.deferredValues,
      Setting.deferredEntries, Setting.ofText]
  all_goals decide +kernel

end UtilityCss.Theme
