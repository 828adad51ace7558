import UtilityCss.Proofs.Result
import UtilityCss.Proofs.Text.Ordered
import UtilityCss.Proofs.Theme.Plan
import UtilityCss.Proofs.Value.Table

set_option autoImplicit false

namespace UtilityCss

namespace Config

theorem Setting.Refers.entry {kind : String → Prop} {entries : Table Setting} {key : String}
    {setting : Setting} (refers : (Setting.table entries).Refers kind)
    (found : Table.get? key entries = some setting) : setting.Refers kind :=
  Setting.refers_table.1 refers (key, setting) (Table.mem_of_get? found)

theorem Setting.Refers.below {kind : String → Prop} {key : String} {setting inner : Setting}
    (refers : setting.Refers kind) (found : setting.get? key = some inner) : inner.Refers kind := by
  cases setting with
  | table entries => exact refers.entry found
  | literal value => simp [Setting.get?, Setting.entries?] at found
  | deferred value => simp [Setting.get?, Setting.entries?] at found

theorem Setting.Refers.settingAt {kind : String → Prop} (path : List String)
    {setting inner : Setting} (refers : setting.Refers kind)
    (found : setting.settingAt path = some inner) : inner.Refers kind := by
  induction path generalizing setting with
  | nil =>
    rw [Setting.settingAt] at found
    exact Option.some.inj found ▸ refers
  | cons key rest ih =>
    rw [Setting.settingAt] at found
    obtain ⟨below, isBelow, isInner⟩ := Option.bind_eq_some_iff.1 found
    exact ih (refers.below isBelow) isInner

def Layer.ofTheme (theme : Table Setting) : Layer :=
  ⟨.table [(themeEntry, .table theme)], ⟨"."⟩, none⟩

theorem Layer.theme_eq_some {layer : Layer} {index : Nat} {part : Table Setting}
    (found : layer.theme index = .ok (some part)) :
    layer.config.get? themeEntry = some (.table part) := by
  unfold Layer.theme at found
  cases config : layer.config with
  | literal value => simp [config] at found
  | deferred value => simp [config] at found
  | table settings =>
    simp only [config] at found
    rcases section? : Table.get? themeEntry settings with _ | ⟨_ | theme | _⟩
    · simp [section?] at found
    · simp [section?] at found
    · simp only [section?] at found
      rcases additions : Table.get? extendEntry theme with _ | ⟨_ | entries | _⟩ <;>
        simp only [additions, Except.ok.injEq, Option.some.injEq, reduceCtorEq] at found
      · subst found
        exact section?
      · subst found
        exact section?
    · simp [section?] at found

theorem Layer.eq_some_of_theme {layer : Layer} {index : Nat} {part : Table Setting}
    {own : Option (Table Setting)} (isTheme : layer.config.get? themeEntry = some (.table part))
    (found : layer.theme index = .ok own) : own = some part := by
  unfold Layer.theme at found
  cases config : layer.config with
  | literal value => simp [config, Setting.get?, Setting.entries?] at isTheme
  | deferred value => simp [config, Setting.get?, Setting.entries?] at isTheme
  | table settings =>
    rw [config] at isTheme
    have section? : Table.get? themeEntry settings = some (.table part) := isTheme
    simp only [config, section?] at found
    rcases additions : Table.get? extendEntry part with _ | ⟨_ | entries | _⟩ <;>
      simp only [additions, Except.ok.injEq, reduceCtorEq] at found
    · exact found.symm
    · exact found.symm

end Config

namespace Theme

open UtilityCss.Config

theorem Basis.sectionsOf_cons {layer : Layer} {rest : Stack} {index : Nat}
    {sections : List (Table Setting)} (found : sectionsOf index (layer :: rest) = .ok sections) :
    ∃ part others, layer.theme index = .ok part ∧ sectionsOf (index + 1) rest = .ok others ∧
      sections = part.toList ++ others := by
  rw [sectionsOf] at found
  rcases own : layer.theme index with _ | part
  · simp [own] at found
  · rw [own] at found
    obtain ⟨others, later, rfl⟩ := map_eq_ok.1 found
    exact ⟨part, others, rfl, later, rfl⟩

theorem Basis.mem_sectionsOf {stack : Stack} {index : Nat} {sections : List (Table Setting)}
    (found : sectionsOf index stack = .ok sections) :
    ∀ part ∈ sections, ∃ layer ∈ stack,
      layer.config.get? themeEntry = some (.table part) := by
  induction stack generalizing index sections with
  | nil =>
    cases found
    simp
  | cons layer rest ih =>
    obtain ⟨own, others, isOwn, isLater, rfl⟩ := sectionsOf_cons found
    intro part member
    rcases List.mem_append.1 member with here | later
    · rw [Option.mem_toList] at here
      cases here
      exact ⟨layer, List.mem_cons_self, Layer.theme_eq_some isOwn⟩
    · obtain ⟨found, inside, rest⟩ := ih isLater part later
      exact ⟨found, List.mem_cons_of_mem _ inside, rest⟩

theorem Basis.part_mem_sectionsOf {stack : Stack} {index : Nat} {sections : List (Table Setting)}
    (found : sectionsOf index stack = .ok sections) {layer : Layer} (member : layer ∈ stack)
    {part : Table Setting} (isTheme : layer.config.get? themeEntry = some (.table part)) :
    part ∈ sections := by
  induction stack generalizing index sections with
  | nil => simp at member
  | cons first rest ih =>
    obtain ⟨own, others, isOwn, isLater, rfl⟩ := sectionsOf_cons found
    rcases List.mem_cons.1 member with rfl | later
    · rw [Layer.eq_some_of_theme isTheme isOwn]
      simp
    · exact List.mem_append_right _ (ih isLater later)

theorem Basis.sectionsOf_append (before rest : Stack) (index : Nat) :
    sectionsOf index (before ++ rest) = (sectionsOf index before).bind fun first =>
      (sectionsOf (index + before.length) rest).map (first ++ ·) := by
  induction before generalizing index with
  | nil =>
    rw [List.nil_append, List.length_nil, Nat.add_zero]
    cases sectionsOf index rest <;> simp [sectionsOf, Except.bind, Except.map]
  | cons layer before ih =>
    rw [List.cons_append, sectionsOf, sectionsOf]
    cases layer.theme index with
    | error error => rfl
    | ok own =>
      rw [ih, List.length_cons, Nat.add_assoc, Nat.add_comm 1]
      cases sectionsOf (index + 1) before with
      | error error => rfl
      | ok first =>
        cases sectionsOf (index + (before.length + 1)) rest <;> simp [Except.bind, Except.map]

theorem bind_settingAt_nil (found : Option Setting) : found.bind (Setting.settingAt []) = found := by
  cases found <;> rfl

theorem settingAt_definition {layer : Layer} {part : Table Setting}
    (isTheme : layer.config.get? themeEntry = some (.table part)) (key : String) :
    layer.config.settingAt [themeEntry, key] = definition? key part := by
  rw [Setting.settingAt, isTheme, Option.bind_some, Setting.settingAt, bind_settingAt_nil]
  rfl

theorem exists_section_of_settingAt {layer : Layer} {key : String}
    (found : (layer.config.settingAt [themeEntry, key]).isSome) :
    ∃ part, layer.config.get? themeEntry = some (.table part) := by
  rw [Setting.settingAt] at found
  rcases isTheme : layer.config.get? themeEntry with _ | ⟨value | part | value⟩
  · rw [isTheme] at found
    cases found
  · rw [isTheme] at found
    cases found
  · exact ⟨part, rfl⟩
  · rw [isTheme] at found
    cases found

theorem settingAt_addition {layer : Layer} {part : Table Setting}
    (isTheme : layer.config.get? themeEntry = some (.table part)) (key : String) :
    layer.config.settingAt [themeEntry, extendEntry, key] = addition? key part := by
  rw [Setting.settingAt, isTheme, Option.bind_some, Setting.settingAt, addition?]
  refine congrArg (Option.bind _) (funext fun setting => ?_)
  rw [Setting.settingAt, bind_settingAt_nil]

theorem Plan.settingsFor_refers {kind : String → Prop} {sections : List (Table Setting)}
    (refers : ∀ part ∈ sections, (Setting.table part).Refers kind) (key : String) :
    ∀ setting ∈ settingsFor key sections, setting.Refers kind := by
  intro setting member
  obtain ⟨part, inside, found⟩ := List.mem_flatMap.1 member
  rcases List.mem_append.1 found with defined | added
  · exact (refers part inside).entry (Option.mem_toList.1 defined)
  · obtain ⟨additions, isAdditions, isSetting⟩ := Option.bind_eq_some_iff.1 (Option.mem_toList.1 added)
    exact ((refers part inside).entry isAdditions).below isSetting

theorem Basis.ofLayers_eq_ok {tokens : Tokens} {stack : Stack} {r : Basis}
    (found : Basis.ofLayers tokens stack = .ok r) :
    r.tokens = tokens ∧ sectionsOf 0 stack = .ok r.sections := by
  unfold Basis.ofLayers at found
  obtain ⟨parts, sections, rfl⟩ := map_eq_ok.1 found
  exact ⟨rfl, sections⟩

theorem Basis.refers_of_stack {kind : String → Prop} {tokens : Tokens} {stack : Stack} {r : Basis}
    (found : Basis.ofLayers tokens stack = .ok r)
    (refers : ∀ layer ∈ stack, layer.config.Refers kind) (key : String) :
    ∀ setting ∈ Plan.settingsFor key r.sections, setting.Refers kind := by
  refine Plan.settingsFor_refers (fun part member => ?_) key
  obtain ⟨layer, inside, isTheme⟩ := mem_sectionsOf (ofLayers_eq_ok found).2 part member
  exact (refers layer inside).below isTheme

theorem mem_sectionKeys {key : String} {part : Table Setting} :
    key ∈ sectionKeys part ↔
      key ≠ extendEntry ∧ (definition? key part).isSome ∨ (addition? key part).isSome := by
  have defined : key ∈ (Table.keys part).filter (· ≠ extendEntry) ↔
      key ≠ extendEntry ∧ (definition? key part).isSome := by
    rw [List.mem_filter, and_comm, definition?, Table.get?_isSome_iff]
    simp [Table.keys]
  unfold sectionKeys addition?
  rw [List.mem_append, defined]
  rcases Table.get? extendEntry part with _ | ⟨value | entries | value⟩
  · simp
  · simp [Setting.get?, Setting.entries?]
  · simp [Setting.get?, Setting.entries?, Table.get?_isSome_iff, Table.keys]
  · simp [Setting.get?, Setting.entries?]

theorem Basis.mem_configKeys {r : Basis} {key : String} :
    key ∈ r.configKeys ↔ ∃ part ∈ r.sections, key ∈ sectionKeys part := by
  rw [configKeys, Ordered.mem_ofList, List.mem_flatMap]

theorem Basis.not_mem_configKeys {tokens : Tokens} {stack : Stack} {r : Basis} {key : String}
    (found : Basis.ofLayers tokens stack = .ok r)
    (free : ∀ layer ∈ stack, layer.config.settingAt [themeEntry, key] = none ∧
      layer.config.settingAt [themeEntry, extendEntry, key] = none) : key ∉ r.configKeys := by
  rw [mem_configKeys]
  rintro ⟨part, member, isKey⟩
  obtain ⟨layer, inside, isTheme⟩ := mem_sectionsOf (ofLayers_eq_ok found).2 part member
  obtain ⟨undefined, unextended⟩ := free layer inside
  rw [settingAt_definition isTheme] at undefined
  rw [settingAt_addition isTheme] at unextended
  simp [mem_sectionKeys, undefined, unextended] at isKey

end Theme

end UtilityCss
