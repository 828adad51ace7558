import UtilityCss.Proofs.Project.ThemeFiles
import UtilityCss.Proofs.Source.Refusals

set_option autoImplicit false

namespace UtilityCss

open Source UtilityCss.Path

namespace SourceCatalog

variable {catalog : SourceCatalog} {entry other : Entry} {patterns : List SourcePattern}

theorem mem_insert (member : entry ∈ (catalog.insert other).entries) :
    entry ∈ catalog.entries ∨ entry = other := by
  unfold insert at member
  split_ifs at member
  · exact .inl member
  · simpa using member

def IsAnchored (catalog : SourceCatalog) : Prop :=
  ∀ entry ∈ catalog.entries, entry.origin ≠ .negated → entry.base.isAbsolute = true

theorem IsAnchored.insert (anchored : catalog.IsAnchored)
    (own : entry.origin ≠ .negated → entry.base.isAbsolute = true) :
    (catalog.insert entry).IsAnchored := by
  intro other member
  rcases mem_insert member with old | rfl
  · exact anchored other old
  · exact own

theorem IsAnchored.addPattern (anchored : catalog.IsAnchored) {pattern : SourcePattern}
    (absolute : pattern.base.isAbsolute = true) : (catalog.addPattern pattern).IsAnchored := by
  unfold SourceCatalog.addPattern
  split_ifs
  · exact anchored.insert fun _ => absolute
  · exact anchored.insert fun _ => absolute

theorem IsAnchored.addPatterns (anchored : catalog.IsAnchored)
    (absolute : ∀ pattern ∈ patterns, pattern.base.isAbsolute = true) :
    (patterns.foldl SourceCatalog.addPattern catalog).IsAnchored := by
  induction patterns generalizing catalog with
  | nil => exact anchored
  | cons pattern rest ih =>
    obtain ⟨first, others⟩ := List.forall_mem_cons.1 absolute
    exact ih (anchored.addPattern first) others

theorem isAnchored_ofProject {root : Path} (absolute : root.isAbsolute = true) :
    (ofProject root).IsAnchored := by
  have none : empty.IsAnchored := fun entry member => absurd member List.not_mem_nil
  exact none.insert fun _ => absolute

theorem entriesOf_default_addPatterns (patterns : List SourcePattern) :
    (patterns.foldl SourceCatalog.addPattern catalog).entriesOf .default =
      catalog.entriesOf .default := by
  induction patterns generalizing catalog with
  | nil => rfl
  | cons pattern rest ih =>
    rw [List.foldl_cons, ih, SourceCatalog.addPattern]
    split_ifs
    · exact entriesOf_insert_of_ne (by simp : Origin.negated ≠ .default)
    · exact entriesOf_insert_of_ne (by simp : Origin.declared ≠ .default)

end SourceCatalog

namespace Config

theorem base_of_mem_content {layer : Layer} {pattern : SourcePattern}
    (member : pattern ∈ layer.content) : pattern.base = layer.base := by
  obtain ⟨text, -, rfl⟩ := List.mem_map.1 member
  unfold Layer.sourcePattern
  split <;> rfl

end Config

namespace ProjectInputs

variable {tree : FileTree} {paths : ProjectPaths} {places : ProjectPlaces} {inputs : ProjectInputs}

theorem isAnchored_excludeOutput {catalog : SourceCatalog} (anchored : catalog.IsAnchored)
    (output : Option Path) : (excludeOutput catalog output).IsAnchored := by
  unfold excludeOutput
  split
  · exact anchored.insert fun included => absurd rfl included
  · exact anchored

theorem isAnchored_catalog (located : paths.locate tree = .ok places)
    (loaded : read tree places = .ok inputs) : inputs.catalog.IsAnchored := by
  have isRead := read_iff.1 loaded
  obtain ⟨root, input⟩ := ProjectPaths.isPlace_of_locate located
  have sheet := Stylesheet.isAnchored_of_read (isAbsolute_of_isPlace input) isRead.stylesheet
  have layers : ∀ pattern ∈ Config.Stack.content inputs.layers, pattern.base.isAbsolute = true := by
    intro pattern member
    obtain ⟨layer, isLayer, inside⟩ := List.mem_flatMap.1 member
    obtain ⟨file, isPlace, read⟩ := Config.isPlace_of_ofFiles sheet.configs isRead.layers layer isLayer
    exact Config.base_of_mem_content inside ▸ Config.isAbsolute_directory isPlace read
  rw [isRead.catalog]
  exact isAnchored_excludeOutput
    (((SourceCatalog.isAnchored_ofProject (isAbsolute_of_isPlace root)).addPatterns
      sheet.sources).addPatterns layers) places.output

theorem entriesOf_default_excludeOutput (catalog : SourceCatalog) (output : Option Path) :
    (excludeOutput catalog output).entriesOf .default = catalog.entriesOf .default := by
  unfold excludeOutput
  split
  · exact SourceCatalog.entriesOf_insert_of_ne (by simp : Origin.negated ≠ .default)
  · rfl

theorem entriesOf_default (loaded : read tree places = .ok inputs) :
    inputs.catalog.entriesOf .default = [⟨"**/*", places.root, .default⟩] := by
  rw [(read_iff.1 loaded).catalog, catalogOf, entriesOf_default_excludeOutput,
    SourceCatalog.addLayers, SourceCatalog.entriesOf_default_addPatterns,
    SourceCatalog.addStylesheet, SourceCatalog.entriesOf_default_addPatterns]
  rfl

theorem answers_of_locate (located : paths.locate tree = .ok places)
    (loaded : read tree places = .ok inputs) :
    inputs.selector.files? tree = some (inputs.selector.files tree) ∧
      ∀ path, inputs.selector.selects? path = some (inputs.selector.selects path) := by
  obtain ⟨names, root, areNames⟩ := (ProjectPaths.isPlace_of_locate located).1
  have answers : ∀ file ∈ inputs.catalog.ignoreFiles tree, SourceSelector.AnswersAll file := by
    refine SourceSelector.answersAll_ignoreFiles fun entry member => ?_
    rw [entriesOf_default loaded, List.mem_singleton] at member
    rw [member, root, normalize_pathOf areNames]
  have compiles := SourceSelector.compiles_of_ofCatalog (read_iff.1 loaded).selector
  exact ⟨SourceSelector.files?_eq_some compiles answers, fun path =>
    SourceSelector.selects?_eq_selects (SourceSelector.selects?_ne_none compiles answers path)⟩

end ProjectInputs

end UtilityCss
