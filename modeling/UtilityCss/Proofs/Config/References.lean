import UtilityCss.Config.Layer

set_option autoImplicit false

namespace UtilityCss.Config

namespace Setting

mutual

def deferredValues : Setting → List Deferred
  | .literal _ => []
  | .deferred value => [value]
  | .table entries => deferredEntries entries

def deferredEntries : List (String × Setting) → List Deferred
  | [] => []
  | (_, setting) :: rest => deferredValues setting ++ deferredEntries rest

end

def Refers (kind : String → Prop) (setting : Setting) : Prop :=
  ∀ deferred ∈ setting.deferredValues, ∃ path, deferred = .reference path ∧ kind path

def paths (setting : Setting) : List String :=
  setting.deferredValues.filterMap fun
    | .reference path => some path
    | .computed _ => none

theorem mem_paths {setting : Setting} {path : String} :
    path ∈ setting.paths ↔ .reference path ∈ setting.deferredValues := by
  simp only [paths, List.mem_filterMap]
  constructor
  · rintro ⟨deferred, member, found⟩
    cases deferred <;> simp_all
  · exact fun member => ⟨_, member, rfl⟩

theorem Refers.mono {kind wider : String → Prop} {setting : Setting} (refers : setting.Refers kind)
    (wide : ∀ path ∈ setting.paths, kind path → wider path) : setting.Refers wider := by
  intro deferred member
  obtain ⟨path, rfl, isKind⟩ := refers deferred member
  exact ⟨path, rfl, wide path (mem_paths.2 member) isKind⟩

theorem Refers.path {kind : String → Prop} {setting : Setting} {path : String}
    (refers : setting.Refers kind) (member : path ∈ setting.paths) : kind path := by
  obtain ⟨other, same, isKind⟩ := refers _ (mem_paths.1 member)
  exact Deferred.reference.inj same ▸ isKind

theorem mem_deferredEntries {deferred : Deferred} {entries : List (String × Setting)} :
    deferred ∈ deferredEntries entries ↔ ∃ entry ∈ entries, deferred ∈ entry.2.deferredValues := by
  induction entries with
  | nil => simp [deferredEntries]
  | cons entry rest ih => simp [deferredEntries, ih]

theorem refers_table {kind : String → Prop} {entries : List (String × Setting)} :
    (Setting.table entries).Refers kind ↔ ∀ entry ∈ entries, entry.2.Refers kind := by
  simp only [Refers, deferredValues, mem_deferredEntries]
  constructor
  · exact fun refers entry member deferred inside => refers deferred ⟨entry, member, inside⟩
  · rintro refers deferred ⟨entry, member, inside⟩
    exact refers entry member deferred inside

mutual

theorem refers_ofValue : ∀ value : Value, (ofValue value).Refers fun _ => True
  | .table entries => by
    rw [ofValue, refers_table]
    exact refers_ofEntries entries
  | .string text => by
    unfold ofValue
    cases referencePath? text <;> simp [Refers, deferredValues]
  | .integer _ => by simp [ofValue, Refers, deferredValues]
  | .float _ => by simp [ofValue, Refers, deferredValues]
  | .boolean _ => by simp [ofValue, Refers, deferredValues]
  | .datetime _ => by simp [ofValue, Refers, deferredValues]
  | .array _ => by simp [ofValue, Refers, deferredValues]

theorem refers_ofEntries : ∀ entries : List (String × Value),
    ∀ entry ∈ ofEntries entries, entry.2.Refers fun _ => True
  | [] => by simp [ofEntries]
  | (_, value) :: rest => by
    rw [ofEntries, List.forall_mem_cons]
    exact ⟨refers_ofValue value, refers_ofEntries rest⟩

end

mutual

def replaced? (value? : String → Option Value) : Setting → Option Value
  | .literal value => some value
  | .deferred (.reference path) => value? path
  | .deferred (.computed _) => none
  | .table entries => (replacedEntries? value? entries).map .table

def replacedEntries? (value? : String → Option Value) :
    List (String × Setting) → Option (List (String × Value))
  | [] => some []
  | (key, setting) :: rest => do
    let value ← replaced? value? setting
    let values ← replacedEntries? value? rest
    return (key, value) :: values

end

end Setting

end UtilityCss.Config
