import UtilityCss.Proofs.Theme.Sections

set_option autoImplicit false

namespace UtilityCss

namespace Table

variable {α : Type}

def without (key : String) (table : Table α) : Table α :=
  table.filter fun entry => entry.1 ≠ key

def modify (key : String) (change : α → α) (table : Table α) : Table α :=
  table.map fun entry => if entry.1 = key then (entry.1, change entry.2) else entry

theorem get?_without (key other : String) (table : Table α) :
    get? other (without key table) = if other = key then none else get? other table := by
  have filtered := get?_filter (fun next => next ≠ key) other table
  unfold without
  rw [filtered]
  by_cases same : other = key <;> simp [same]

theorem get?_modify (key other : String) (change : α → α) (table : Table α) :
    get? other (modify key change table) =
      if other = key then (get? other table).map change else get? other table := by
  unfold modify
  induction table with
  | nil => simp [get?]
  | cons entry rest ih =>
    obtain ⟨first, value⟩ := entry
    by_cases found : other = first
    · subst found
      by_cases same : other = key <;> simp [get?, same]
    · by_cases same : first = key
      · simp only [List.map_cons, if_pos same, get?, if_neg found]
        exact ih
      · simp only [List.map_cons, if_neg same, get?, if_neg found]
        exact ih

end Table

namespace Config

namespace Setting

def eraseAt : List String → Setting → Setting
  | [key], .table entries => .table (Table.without key entries)
  | key :: rest, .table entries => .table (Table.modify key (eraseAt rest) entries)
  | _, setting => setting

theorem get?_eraseAt (key other : String) (setting : Setting) :
    (eraseAt [key] setting).get? other = if other = key then none else setting.get? other := by
  cases setting with
  | table entries => exact Table.get?_without key other entries
  | literal value => simp [eraseAt, get?, entries?]
  | deferred value => simp [eraseAt, get?, entries?]

end Setting

namespace Setting

theorem Refers.eraseAt {kind : String → Prop} (path : List String) {setting : Setting}
    (refers : setting.Refers kind) : (setting.eraseAt path).Refers kind := by
  induction path generalizing setting with
  | nil => cases setting <;> exact refers
  | cons key rest ih =>
    cases setting with
    | literal value => cases rest <;> exact refers
    | deferred value => cases rest <;> exact refers
    | table entries =>
      rw [refers_table] at refers
      cases rest with
      | nil =>
        rw [Setting.eraseAt, refers_table]
        exact fun entry member => refers entry (List.mem_of_mem_filter member)
      | cons next rest =>
        rw [Setting.eraseAt, refers_table]
        · intro entry member
          obtain ⟨old, inside, rfl⟩ := List.mem_map.1 member
          split_ifs
          · exact ih (refers old inside)
          · exact refers old inside
        · simp

end Setting

def sectionWithout (key : String) (part : Table Setting) : Table Setting :=
  Table.modify extendEntry (Setting.eraseAt [key]) (Table.without key part)

namespace Layer

/-- What the theme section of a layer defines for a key and adds to it. -/
def settingsOf (layer : Layer) (key : String) : List Setting :=
  (layer.config.settingAt [themeEntry, key]).toList ++
    (layer.config.settingAt [themeEntry, extendEntry, key]).toList

theorem refers_settingsOf {layer : Layer} {kind : String → Prop} {key : String} {setting : Setting}
    (refers : layer.config.Refers kind) (member : setting ∈ layer.settingsOf key) :
    setting.Refers kind := by
  rcases List.mem_append.1 member with defined | added
  · exact refers.settingAt _ (Option.mem_toList.1 defined)
  · exact refers.settingAt _ (Option.mem_toList.1 added)

def without (layer : Layer) (key : String) : Layer :=
  { layer with
    config := (layer.config.eraseAt [themeEntry, key]).eraseAt [themeEntry, extendEntry, key] }

theorem refers_without {layer : Layer} {kind : String → Prop} (key : String)
    (refers : layer.config.Refers kind) : (layer.without key).config.Refers kind :=
  (refers.eraseAt _).eraseAt _

theorem theme_without (layer : Layer) {key : String} (index : Nat) (ordinary : key ≠ extendEntry) :
    (layer.without key).theme index =
      (layer.theme index).map (Option.map (sectionWithout key)) := by
  unfold theme without
  cases layer.config with
  | literal value => rfl
  | deferred value => rfl
  | table settings =>
    simp only [Setting.eraseAt, Table.get?_modify, if_true]
    rcases Table.get? themeEntry settings with _ | ⟨value | part | value⟩
    · rfl
    · rfl
    · simp only [Option.map_some, Setting.eraseAt, Table.get?_modify, Table.get?_without,
        if_true, if_neg (Ne.symm ordinary)]
      rcases Table.get? extendEntry part with _ | ⟨value | entries | value⟩ <;> rfl
    · rfl

end Layer

end Config

namespace Theme

open UtilityCss.Config

theorem definition?_sectionWithout {key other : String} (part : Table Setting)
    (ordinary : other ≠ extendEntry) :
    definition? other (sectionWithout key part) =
      if other = key then none else definition? other part := by
  rw [definition?, sectionWithout, Table.get?_modify, if_neg ordinary, Table.get?_without]
  rfl

theorem addition?_sectionWithout {key : String} (other : String) (part : Table Setting)
    (ordinary : key ≠ extendEntry) :
    addition? other (sectionWithout key part) =
      if other = key then none else addition? other part := by
  rw [addition?, addition?, sectionWithout, Table.get?_modify, if_pos rfl, Table.get?_without,
    if_neg (Ne.symm ordinary)]
  cases Table.get? extendEntry part with
  | none => simp
  | some additions => exact Setting.get?_eraseAt key other additions

end Theme

end UtilityCss
