import UtilityCss.Project.Inputs
import UtilityCss.Proofs.Config.Loading
import UtilityCss.Proofs.FileTree.Directories
import UtilityCss.Proofs.Source.Selection
import UtilityCss.Proofs.Stylesheet.Flattening

set_option autoImplicit false

namespace UtilityCss

open UtilityCss.Path FileTree

variable {tree other : FileTree}

theorem isPlace_of_existing {path place : Path} (absolute : path.isAbsolute = true)
    (found : tree.existing path = .ok place) : Config.IsPlace place := by
  unfold existing at found
  exact Config.isPlace_of_canonicalize (.inl absolute) (mapError_eq_ok.1 found)

theorem isAbsolute_absolute (tree : FileTree) (path : Path) :
    (tree.absolute path).isAbsolute = true :=
  isAbsolute_normalize (Source.isAbsolute_join (isAbsolute_pathOf _))

theorem isAbsolute_of_isPlace {path : Path} (isPlace : Config.IsPlace path) :
    path.isAbsolute = true := by
  obtain ⟨names, rfl, -⟩ := isPlace
  exact isAbsolute_pathOf names

namespace ProjectPaths

variable {paths : ProjectPaths} {places : ProjectPlaces}

theorem isPlace_of_locate (located : paths.locate tree = .ok places) :
    Config.IsPlace places.root ∧ Config.IsPlace places.input := by
  unfold locate at located
  have absolute : ((paths.root.map tree.absolute).getD tree.workingPath).isAbsolute = true := by
    cases paths.root with
    | none => exact isAbsolute_pathOf _
    | some root => exact isAbsolute_absolute tree root
  obtain ⟨place, root, located⟩ := bind_eq_ok.1 located
  obtain ⟨spot, input, located⟩ := bind_eq_ok.1 located
  obtain rfl := Except.ok.inj located
  exact ⟨isPlace_of_existing absolute root,
    isPlace_of_existing (isAbsolute_absolute tree paths.input) input⟩

theorem locate_congr (same : tree.outline = other.outline) (paths : ProjectPaths) :
    paths.locate tree = paths.locate other := by
  have home : tree.workingDirectory = other.workingDirectory := by
    simpa only [outline] using congrArg workingDirectory same
  have absolute : tree.absolute = other.absolute := funext fun path => absolute_congr same path
  simp only [locate, existing, workingPath, home, absolute, canonicalize_congr same]

end ProjectPaths

namespace Stylesheet

variable {path : Path} {css : String} {sheet : Stylesheet} {visits : List Visit}

theorem exists_of_read (absolute : path.isAbsolute = true) (isRead : read tree path = .ok sheet) :
    ∃ css visits, tree.readText path = .ok css ∧
      Follows tree [path.normalize] (parse path css).imports visits ∧
        IsFlattened (parse path css) visits sheet := by
  unfold read at isRead
  cases text : tree.readText path with
  | error fault => simp [text] at isRead
  | ok css =>
    obtain ⟨visits, follows⟩ :=
      exists_follows (isChain_start absolute text) (isWritten_of_readText absolute text)
    have flattened := isFlattened_flatten absolute text follows
    rw [text] at isRead
    exact ⟨css, visits, rfl, follows, Except.ok.inj isRead ▸ flattened⟩

theorem read_transfer (absolute : path.isAbsolute = true) (isRead : read tree path = .ok sheet)
    (alike : ∀ file ∈ path :: sheet.importedFiles, ReadsAlike tree other file) :
    read other path = .ok sheet := by
  obtain ⟨css, visits, text, follows, flattened⟩ := exists_of_read absolute isRead
  obtain ⟨own, others⟩ := List.forall_mem_cons.1 alike
  obtain ⟨visitsToo, again, same⟩ := follows.transfer fun visit member file target =>
    others file (flattened.importedFiles ▸ List.mem_filterMap.2 ⟨visit, member, target⟩)
  have isText := own.ok text
  rw [read, isText]
  exact congrArg Except.ok
    ((isFlattened_flatten absolute isText again).unique (flattened.congr same))

theorem isAbsolute_base (absolute : path.isAbsolute = true) (text : tree.readText path = .ok css)
    (follows : Follows tree [path.normalize] (parse path css).imports visits) :
    ∀ file ∈ filesRead visits (parse path css), file.base.isAbsolute = true := by
  have base {path : Path} {css : String} (absolute : path.isAbsolute = true)
      (text : tree.readText path = .ok css) : (parse path css).base.isAbsolute = true := by
    obtain ⟨content, read⟩ := readBytes_of_readText text
    exact isAbsolute_directory absolute read
  refine List.forall_mem_append.2 ⟨fun file member => ?_,
    List.forall_mem_singleton.2 (base absolute text)⟩
  obtain ⟨visit, visited, isRead⟩ := List.mem_filterMap.1 member
  obtain ⟨place, content, target, isText, rfl⟩ := follows.exists_text visited isRead
  have written := follows.written (isWritten_of_readText absolute text) visit visited
  exact base (written.normal place target).isAbsolute isText

structure IsAnchored (sheet : Stylesheet) : Prop where
  sources : ∀ source ∈ sheet.sources, source.base.isAbsolute = true
  configs : ∀ config ∈ sheet.configs, config.isAbsolute = true

theorem isAnchored_of_read (absolute : path.isAbsolute = true) (isRead : read tree path = .ok sheet) :
    sheet.IsAnchored := by
  obtain ⟨css, visits, text, follows, flattened⟩ := exists_of_read absolute isRead
  have bases := isAbsolute_base absolute text follows
  have keeps : ∀ file ∈ filesRead visits (parse path css), KeepsBase file :=
    keepsBase_of_follows follows
  constructor
  · intro source member
    obtain ⟨file, isFile, own⟩ := List.mem_flatMap.1 (flattened.sources ▸ member)
    exact (keeps file isFile).sources source own ▸ bases file isFile
  · intro config member
    obtain ⟨file, isFile, own⟩ := List.mem_flatMap.1 (flattened.configs ▸ member)
    obtain ⟨target, rfl⟩ := (keeps file isFile).configs config own
    exact Source.isAbsolute_join (bases file isFile)

end Stylesheet

namespace Config

variable {file path : Path} {layer : Layer} {chain : List Path} {presets : PresetTree}
  {stack : Stack}

theorem ofFile_transfer (alike : ReadsAlike tree other file)
    (read : Layer.ofFile tree file = .ok layer) : Layer.ofFile other file = .ok layer := by
  obtain ⟨text, isText, made⟩ := bind_eq_ok.1 read
  have again := alike.ok (mapError_eq_ok.1 isText)
  exact bind_eq_ok.2 ⟨text, mapError_eq_ok.2 again, made⟩

theorem isOk_of_ofFile (read : Layer.ofFile tree file = .ok layer) : (tree.readText file).isOk := by
  obtain ⟨text, isText, -⟩ := bind_eq_ok.1 read
  rw [mapError_eq_ok.1 isText]
  rfl

theorem placeOfPreset_transfer {base place : Path} {name : String}
    (same : SameDirectories tree other) (absolute : base.isAbsolute = true)
    (located : placeOfPreset tree base name = .ok place) (readable : (other.readText place).isOk) :
    placeOfPreset other base name = .ok place := by
  unfold placeOfPreset placeOf at located ⊢
  have found := mapError_eq_ok.1 located
  exact mapError_eq_ok.2
    (canonicalize_transfer same (Source.isAbsolute_join absolute) found readable)

theorem Unfolds.exists_layer (unfolds : Unfolds tree chain presets) :
    ∃ layer, Layer.ofFile tree presets.file = .ok layer := by
  cases unfolds with
  | node fresh read located unfolded => exact ⟨_, read⟩

theorem Unfolds.transfer (unfolds : Unfolds tree chain presets) (isPlace : IsPlace presets.file)
    (same : SameDirectories tree other)
    (alike : ∀ file ∈ presets.files, ReadsAlike tree other file) : Unfolds other chain presets := by
  induction unfolds with
  | @node chain file layer below fresh read located unfolded ih =>
    rw [files_node read] at alike
    obtain ⟨inner, own⟩ := List.forall_mem_append.1 alike
    have places : ∀ next ∈ below, IsPlace next.file := by
      intro next member
      obtain ⟨name, -, place⟩ := exists_left_of_forall₂ located member
      exact isPlace_of_preset isPlace read place
    have again : ∀ next ∈ below, Unfolds other (chain ++ [file]) next := fun next member =>
      ih next member (places next member) fun place inside =>
        inner place (List.mem_flatMap.2 ⟨next, member, inside⟩)
    refine .node fresh (ofFile_transfer (own file (List.mem_singleton_self file)) read) ?_ again
    rw [List.forall₂_iff_get] at located ⊢
    refine ⟨located.1, fun index inNames inBelow => ?_⟩
    obtain ⟨inside, isLayer⟩ := (again _ (List.get_mem below ⟨index, inBelow⟩)).exists_layer
    exact placeOfPreset_transfer same (isAbsolute_directory isPlace read)
      (located.2 index inNames inBelow) (isOk_of_ofFile isLayer)

theorem Unfolds.isPlace (unfolds : Unfolds tree chain presets) (isPlace : IsPlace presets.file) :
    ∀ layer ∈ presets.layers, ∃ file, IsPlace file ∧ Layer.ofFile tree file = .ok layer := by
  induction unfolds with
  | @node chain file own below fresh read located unfolded ih =>
    intro layer member
    rw [PresetTree.layers, PresetTree.layersOf_eq, List.mem_append, List.mem_flatMap,
      List.mem_singleton] at member
    rcases member with ⟨next, inside, found⟩ | rfl
    · obtain ⟨name, -, place⟩ := exists_left_of_forall₂ located inside
      exact ih next inside (isPlace_of_preset isPlace read place) layer found
    · exact ⟨file, isPlace, read⟩

theorem exists_unfolds (absolute : path.isAbsolute = true)
    (loaded : Stack.ofFile tree path = .ok stack) :
    ∃ presets, IsPlace presets.file ∧ tree.canonicalize path = .ok presets.file ∧
      Unfolds tree [] presets ∧ presets.layers = stack := by
  obtain ⟨start, place, -⟩ := bind_eq_ok.1 loaded
  have found : tree.canonicalize path = .ok start := mapError_eq_ok.1 place
  have isPlace := isPlace_of_canonicalize (.inl absolute) found
  obtain ⟨presets, rfl, unfolds, layers⟩ := (ofFile_iff_unfolds found isPlace).1 loaded
  exact ⟨presets, isPlace, found, unfolds, layers⟩

theorem stack_transfer (absolute : path.isAbsolute = true)
    (loaded : Stack.ofFile tree path = .ok stack) (same : SameDirectories tree other)
    (alike : ∀ file ∈ stack.filterMap Layer.origin, ReadsAlike tree other file) :
    Stack.ofFile other path = .ok stack := by
  obtain ⟨presets, isPlace, found, unfolds, rfl⟩ := exists_unfolds absolute loaded
  have again := unfolds.transfer isPlace same alike
  obtain ⟨layer, isLayer⟩ := again.exists_layer
  have foundToo := canonicalize_transfer same absolute found (isOk_of_ofFile isLayer)
  exact (ofFile_iff_unfolds foundToo isPlace).2 ⟨presets, rfl, again, rfl⟩

theorem exists_of_ofFiles {configs : List Path} (loaded : Stack.ofFiles tree configs = .ok stack) :
    ∃ parts : List Stack,
      List.Forall₂ (fun config part => Stack.ofFile tree config = .ok part) configs parts ∧
        stack = parts.flatten := by
  obtain ⟨parts, each, loaded⟩ := bind_eq_ok.1 loaded
  exact ⟨parts, mapM_eq_ok.1 each, (Except.ok.inj loaded).symm⟩

theorem files_transfer {configs : List Path} (absolute : ∀ config ∈ configs, config.isAbsolute = true)
    (loaded : Stack.ofFiles tree configs = .ok stack) (same : SameDirectories tree other)
    (alike : ∀ file ∈ stack.filterMap Layer.origin, ReadsAlike tree other file) :
    Stack.ofFiles other configs = .ok stack := by
  obtain ⟨parts, each, rfl⟩ := exists_of_ofFiles loaded
  have again : configs.mapM (Stack.ofFile other) = .ok parts := by
    rw [mapM_eq_ok]
    clear loaded
    induction each with
    | nil => exact .nil
    | cons first rest ih =>
      rw [List.flatten_cons, List.filterMap_append] at alike
      obtain ⟨own, others⟩ := List.forall_mem_append.1 alike
      obtain ⟨begins, later⟩ := List.forall_mem_cons.1 absolute
      exact .cons (stack_transfer begins first same own) (ih later others)
  simp only [Stack.ofFiles, again, bind, Except.bind, pure, Except.pure]

theorem isPlace_of_ofFiles {configs : List Path}
    (absolute : ∀ config ∈ configs, config.isAbsolute = true)
    (loaded : Stack.ofFiles tree configs = .ok stack) :
    ∀ layer ∈ stack, ∃ file, IsPlace file ∧ Layer.ofFile tree file = .ok layer := by
  obtain ⟨parts, each, rfl⟩ := exists_of_ofFiles loaded
  intro layer member
  obtain ⟨part, isPart, inside⟩ := List.mem_flatten.1 member
  obtain ⟨config, isConfig, isOk⟩ := exists_left_of_forall₂ each isPart
  obtain ⟨presets, isPlace, -, unfolds, rfl⟩ := exists_unfolds (absolute config isConfig) isOk
  exact unfolds.isPlace isPlace layer inside

-- Places are spelled in one way, so no file is left out for another spelling of it.
theorem origins_of_isPlace
    (isPlace : ∀ layer ∈ stack, ∃ file, IsPlace file ∧ Layer.ofFile tree file = .ok layer) :
    ∀ file ∈ stack.filterMap Layer.origin, file ∈ stack.origins := by
  have places : ∀ file ∈ stack.filterMap Layer.origin, IsPlace file := by
    intro file member
    obtain ⟨layer, isLayer, origin⟩ := List.mem_filterMap.1 member
    obtain ⟨place, isPlace, read⟩ := isPlace layer isLayer
    obtain rfl := Option.some.inj (origin.symm.trans (Layer.of_ofFile read).1)
    exact isPlace
  intro file member
  obtain ⟨kept, inside, same⟩ := exists_keepFirst same_refl member
  obtain ⟨names, rfl, areNames⟩ := places file member
  obtain ⟨others, rfl, areOthers⟩ := places kept (mem_of_mem_keepFirst inside)
  rw [same_pathOf (steps_of_names areNames) (steps_of_names areOthers)] at same
  exact same ▸ inside

end Config

theorem SourceSelector.ofCatalog_transfer {catalog : SourceCatalog} {selector : SourceSelector}
    (compiled : ofCatalog tree catalog = .ok selector) (other : FileTree) :
    ∃ rules, ofCatalog other catalog = .ok { selector with ignoreFiles := rules } := by
  obtain ⟨defaults, declared, excluded, -, walks, roots⟩ := ofCatalog_eq_ok.1 compiled
  refine ⟨(catalog.entriesOf .default).filterMap fun entry => ignoreFile? other entry.base, ?_⟩
  rw [ofCatalog_eq_ok]
  exact ⟨defaults, declared, excluded, rfl, walks, roots⟩

namespace ProjectInputs

variable {places : ProjectPlaces} {inputs : ProjectInputs}

def withIgnoreFiles (inputs : ProjectInputs) (rules : List (Path × Ignore.RuleSet)) :
    ProjectInputs :=
  { inputs with selector := { inputs.selector with ignoreFiles := rules } }

structure IsRead (tree : FileTree) (places : ProjectPlaces) (inputs : ProjectInputs) : Prop where
  stylesheet : Stylesheet.read tree places.input = .ok inputs.stylesheet
  layers : Config.Stack.ofFiles tree inputs.stylesheet.configs = .ok inputs.layers
  catalog : inputs.catalog = catalogOf places inputs.stylesheet inputs.layers
  selector : SourceSelector.ofCatalog tree inputs.catalog = .ok inputs.selector
  themeFiles : inputs.themeFiles = themeFilesOf places inputs.stylesheet inputs.layers

theorem read_iff : read tree places = .ok inputs ↔ IsRead tree places inputs := by
  unfold read
  constructor
  · intro loaded
    obtain ⟨sheet, isSheet, loaded⟩ := bind_eq_ok.1 loaded
    obtain ⟨layers, areLayers, loaded⟩ := bind_eq_ok.1 loaded
    obtain ⟨selector, isSelector, loaded⟩ := bind_eq_ok.1 loaded
    obtain rfl := Except.ok.inj loaded
    exact ⟨isSheet, mapError_eq_ok.1 areLayers, rfl, isSelector, rfl⟩
  · rintro ⟨sheet, layers, catalog, selector, themeFiles⟩
    cases inputs
    dsimp only at sheet layers catalog selector themeFiles
    subst catalog themeFiles
    simp only [sheet, layers, selector, Except.mapError, bind, Except.bind, pure, Except.pure]

theorem read_transfer (absolute : places.input.isAbsolute = true)
    (loaded : read tree places = .ok inputs) (same : SameDirectories tree other)
    (alike : ∀ file ∈ inputs.themeFiles, ReadsAlike tree other file) :
    ∃ rules, read other places = .ok (inputs.withIgnoreFiles rules) := by
  have isRead := read_iff.1 loaded
  rw [isRead.themeFiles, themeFilesOf] at alike
  obtain ⟨sheetFiles, origins⟩ := List.forall_mem_append.1 alike
  have anchored := Stylesheet.isAnchored_of_read absolute isRead.stylesheet
  have places := Config.isPlace_of_ofFiles anchored.configs isRead.layers
  obtain ⟨rules, selector⟩ := SourceSelector.ofCatalog_transfer isRead.selector other
  exact ⟨rules, read_iff.2
    { stylesheet := Stylesheet.read_transfer absolute isRead.stylesheet sheetFiles
      layers := Config.files_transfer anchored.configs isRead.layers same
        fun file member => origins file (Config.origins_of_isPlace places file member)
      catalog := isRead.catalog
      selector := selector
      themeFiles := isRead.themeFiles }⟩

theorem isAbsolute_of_themeFile (absolute : places.input.isAbsolute = true)
    (loaded : read tree places = .ok inputs) :
    ∀ file ∈ inputs.themeFiles, file.isAbsolute = true := by
  have isRead := read_iff.1 loaded
  have anchored := Stylesheet.isAnchored_of_read absolute isRead.stylesheet
  rw [isRead.themeFiles, themeFilesOf]
  refine List.forall_mem_cons.2 ⟨absolute, List.forall_mem_append.2 ⟨fun file member => ?_,
    fun file member => ?_⟩⟩
  · obtain ⟨css, visits, text, follows, flattened⟩ :=
      Stylesheet.exists_of_read absolute isRead.stylesheet
    rw [flattened.importedFiles] at member
    obtain ⟨visit, visited, target⟩ := List.mem_filterMap.1 member
    have written := follows.written (Stylesheet.isWritten_of_readText absolute text) visit visited
    exact (written.normal file target).isAbsolute
  · obtain ⟨layer, isLayer, origin⟩ := List.mem_filterMap.1 (mem_of_mem_keepFirst member)
    obtain ⟨place, isPlace, ofFile⟩ :=
      Config.isPlace_of_ofFiles anchored.configs isRead.layers layer isLayer
    obtain rfl := Option.some.inj (origin.symm.trans (Config.Layer.of_ofFile ofFile).1)
    exact isAbsolute_of_isPlace isPlace

structure Agrees (again inputs : ProjectInputs) : Prop where
  stylesheet : again.stylesheet = inputs.stylesheet
  layers : again.layers = inputs.layers
  catalog : again.catalog = inputs.catalog
  themeFiles : again.themeFiles = inputs.themeFiles

/-- What is loaded is decided by the directories and by what the theme files say, those that cannot
be read among them. So other files may come, go and change. -/
theorem themeFiles_complete (tree : FileTree) (places : ProjectPlaces) (inputs : ProjectInputs)
    (absolute : places.input.isAbsolute = true) (loaded : read tree places = .ok inputs) :
    (∀ other, SameDirectories tree other → (∀ file ∈ inputs.themeFiles, ReadsAlike tree other file) →
      ∃ again, read other places = .ok again ∧ again.Agrees inputs) ∧
    (∀ other, SameDirectories tree other →
      (∀ file ∈ inputs.themeFiles,
        other.contentAt? file.location.names = tree.contentAt? file.location.names) →
      ∃ again, read other places = .ok again ∧ again.Agrees inputs) := by
  have transfer (other : FileTree) (same : SameDirectories tree other)
      (alike : ∀ file ∈ inputs.themeFiles, ReadsAlike tree other file) :
      ∃ again, read other places = .ok again ∧ again.Agrees inputs := by
    obtain ⟨rules, again⟩ := read_transfer absolute loaded same alike
    exact ⟨_, again, rfl, rfl, rfl, rfl⟩
  refine ⟨transfer, fun other same equal => transfer other same fun file member => ?_⟩
  exact readsAlike_of_contentAt? same (isAbsolute_of_themeFile absolute loaded file member)
    (equal file member)

-- A project with an import that is missing and a preset, and the same where the import is no text,
-- one page is gone and another file has come.
private def guide : FileTree :=
  ⟨[("base.toml", .file "[theme]\nring = \"wide\"\n".toUTF8),
    ("guide.css", .file ("@import \"windsmith\";\n@import \"./missing.css\";\n" ++
      "@import \"./part.css\";\n@config \"./main.toml\";\n").toUTF8),
    ("main.toml", .file "presets = [\"base\"]\n".toUTF8),
    ("page.html", .file "flex".toUTF8),
    ("part.css", .file "@theme \x7b --a: 1; \x7d\n".toUTF8)], []⟩

private def otherGuide : FileTree :=
  ⟨[("base.css", .file "@theme \x7b --a: 2; \x7d\n".toUTF8),
    ("base.toml", .file "[theme]\nring = \"wide\"\n".toUTF8),
    ("guide.css", .file ("@import \"windsmith\";\n@import \"./missing.css\";\n" ++
      "@import \"./part.css\";\n@config \"./main.toml\";\n").toUTF8),
    ("main.toml", .file "presets = [\"base\"]\n".toUTF8),
    ("missing.css", .file ⟨#[0xff]⟩),
    ("part.css", .file "@theme \x7b --a: 1; \x7d\n".toUTF8)], []⟩

theorem themeFiles_complete_guide :
    let places : ProjectPlaces := ⟨⟨"/guide.css"⟩, none, ⟨"/"⟩⟩
    places.input.isAbsolute = true ∧ SameDirectories guide otherGuide ∧
      ∃ inputs, read guide places = .ok inputs ∧
        inputs.themeFiles = [⟨"/guide.css"⟩, ⟨"/missing.css"⟩, ⟨"/part.css"⟩, ⟨"/base.toml"⟩,
          ⟨"/main.toml"⟩] ∧
        (∀ file ∈ inputs.themeFiles, ReadsAlike guide otherGuide file) ∧
        ∃ again, read otherGuide places = .ok again ∧ again.Agrees inputs := by
  intro places
  have absolute : places.input.isAbsolute = true := by decide
  have same : SameDirectories guide otherGuide :=
    sameDirectories_of_files (by decide) (by decide)
  have reads : (read guide places).map (·.themeFiles) =
      .ok [⟨"/guide.css"⟩, ⟨"/missing.css"⟩, ⟨"/part.css"⟩, ⟨"/base.toml"⟩, ⟨"/main.toml"⟩] := by
    decide +kernel
  obtain ⟨inputs, loaded, known⟩ := map_eq_ok.1 reads
  have alike : ∀ file ∈ inputs.themeFiles, ReadsAlike guide otherGuide file := by
    rw [known]
    decide +kernel
  have complete := (themeFiles_complete guide places inputs absolute loaded).1 otherGuide same alike
  exact ⟨absolute, same, inputs, loaded, known, alike, complete⟩

end ProjectInputs

end UtilityCss
