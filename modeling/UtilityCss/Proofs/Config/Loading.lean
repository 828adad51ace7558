import Mathlib.Data.List.Perm.Subperm
import UtilityCss.Proofs.Config.Presets
import UtilityCss.Proofs.FileTree
import UtilityCss.Proofs.Result
import UtilityCss.Proofs.Source.FixedStart

set_option autoImplicit false

namespace UtilityCss.Config

open UtilityCss.Path UtilityCss.FileTree

def Loads (tree : FileTree) (chain : List Path) (base : Path) (name : String) : Prop :=
  ∃ presets, placeOfPreset tree base name = .ok presets.file ∧ Unfolds tree chain presets

/-- The traversal that starts at a file comes to another one by way of some files, when everything
before it was loaded. -/
inductive Visits (tree : FileTree) (start : Path) : List Path → Path → Prop
  | start : Visits tree start [] start
  | preset {chain : List Path} {file place : Path} {layer : Layer} {before after : List String}
      {name : String} (visited : Visits tree start chain file)
      (fresh : chain.any file.same = false) (read : Layer.ofFile tree file = .ok layer)
      (listed : layer.presets = before ++ name :: after)
      (loaded : ∀ earlier ∈ before, Loads tree (chain ++ [file]) layer.base earlier)
      (located : placeOfPreset tree layer.base name = .ok place) :
      Visits tree start (chain ++ [file]) place

/-- The traversal comes to a fault: a file that is on the way to itself, one that cannot be read, or
a preset that leads nowhere. -/
inductive Stops (tree : FileTree) (start : Path) : SettingsError → Prop
  | cycle {chain : List Path} {file : Path} (visited : Visits tree start chain file)
      (closes : chain.any file.same = true) : Stops tree start (cycleError chain file)
  | unread {chain : List Path} {file : Path} {error : SettingsError}
      (visited : Visits tree start chain file) (fresh : chain.any file.same = false)
      (read : Layer.ofFile tree file = .error error) : Stops tree start error
  | unlocated {chain : List Path} {file : Path} {layer : Layer} {before after : List String}
      {name : String} {error : SettingsError} (visited : Visits tree start chain file)
      (fresh : chain.any file.same = false) (read : Layer.ofFile tree file = .ok layer)
      (listed : layer.presets = before ++ name :: after)
      (loaded : ∀ earlier ∈ before, Loads tree (chain ++ [file]) layer.base earlier)
      (located : placeOfPreset tree layer.base name = .error error) : Stops tree start error

def IsPlace (path : Path) : Prop := ∃ names, path = pathOf names ∧ ∀ name ∈ names, IsName name

def AreFiles (tree : FileTree) (chain : List Path) : Prop :=
  ∃ places : List (List String), chain = places.map pathOf ∧ places.Nodup ∧
    ∀ names ∈ places, (∀ name ∈ names, IsName name) ∧ (tree.contentAt? names).isSome

variable {tree : FileTree} {chain : List Path} {path file place start : Path} {layer : Layer}
  {presets : PresetTree} {error : SettingsError} {depth : Nat} {stack : Stack}

theorem areFiles_nil (tree : FileTree) : AreFiles tree [] := ⟨[], rfl, List.nodup_nil, by simp⟩

theorem AreFiles.length_le (files : AreFiles tree chain) : chain.length ≤ tree.fileCount := by
  obtain ⟨places, rfl, distinct, inside⟩ := files
  have listed : places ⊆ tree.root.files.map Prod.fst := by
    intro names member
    obtain ⟨content, isContent⟩ := Option.isSome_iff_exists.1 (inside names member).2
    exact List.mem_map.2 ⟨_, Node.mem_files (contentAt?_eq_some.1 isContent), rfl⟩
  simpa [fileCount] using (List.subperm_of_subset distinct listed).length_le

theorem file_of_ofFile {names : List String} (areNames : ∀ name ∈ names, IsName name)
    (read : Layer.ofFile tree (pathOf names) = .ok layer) : (tree.contentAt? names).isSome := by
  obtain ⟨text, isText, -⟩ := bind_eq_ok.1 read
  obtain ⟨content, bytes⟩ := readBytes_of_readText (mapError_eq_ok.1 isText)
  rw [file_of_readBytes areNames bytes, Option.isSome_some]

theorem AreFiles.concat (files : AreFiles tree chain) (isPlace : IsPlace file)
    (fresh : chain.any file.same = false) (read : Layer.ofFile tree file = .ok layer) :
    AreFiles tree (chain ++ [file]) := by
  obtain ⟨places, rfl, distinct, inside⟩ := files
  obtain ⟨names, rfl, areNames⟩ := isPlace
  refine ⟨places ++ [names], by simp, ?_, ?_⟩
  · rw [List.nodup_append]
    refine ⟨distinct, List.nodup_singleton _, fun other member next isNext same => ?_⟩
    obtain rfl := List.mem_singleton.1 isNext
    subst same
    have repeated : (places.map pathOf).any (pathOf other).same = true :=
      List.any_eq_true.2 ⟨pathOf other, List.mem_map_of_mem member, Path.same_refl _⟩
    exact Bool.false_ne_true (fresh.symm.trans repeated)
  · exact List.forall_mem_append.2 ⟨inside,
      List.forall_mem_singleton.2 ⟨areNames, file_of_ofFile areNames read⟩⟩

theorem isPlace_of_canonicalize
    (begins : path.isAbsolute = true ∨ ∀ name ∈ tree.workingDirectory, IsName name)
    (found : tree.canonicalize path = .ok place) : IsPlace place := by
  unfold canonicalize at found
  obtain ⟨names, located, rfl⟩ := map_eq_ok.1 found
  exact ⟨names, rfl, isName_of_locate begins located⟩

theorem isAbsolute_directory (isPlace : IsPlace file) (read : Layer.ofFile tree file = .ok layer) :
    layer.base.isAbsolute = true := by
  obtain ⟨names, rfl, areNames⟩ := isPlace
  rw [(Layer.of_ofFile read).2, directory]
  rcases List.eq_nil_or_concat names with rfl | ⟨before, last, rfl⟩
  · -- The root is no file.
    have isFile := file_of_ofFile areNames read
    simp [contentAt?, nodeAt?, Node.at?, root] at isFile
  · rw [List.concat_eq_append] at areNames ⊢
    obtain ⟨others, own⟩ := List.forall_mem_append.1 areNames
    rw [parent?_pathOf (steps_of_names others) (own last (List.mem_singleton_self last)).toIsStep]
    exact isAbsolute_pathOf before

theorem isPlace_of_preset {name : String} (isPlace : IsPlace file)
    (read : Layer.ofFile tree file = .ok layer)
    (located : placeOfPreset tree layer.base name = .ok place) : IsPlace place := by
  have absolute : (presetPath layer.base name).isAbsolute = true :=
    Source.isAbsolute_join (isAbsolute_directory isPlace read)
  unfold placeOfPreset placeOf at located
  exact isPlace_of_canonicalize (.inl absolute) (mapError_eq_ok.1 located)

def ofPreset (tree : FileTree) (depth : Nat) (chain : List Path) (base : Path) (name : String) :
    Except SettingsError Stack :=
  (placeOfPreset tree base name).bind (Stack.ofFileWithin tree depth chain)

theorem ofFileWithin_of_mem (closes : chain.any file.same = true) :
    Stack.ofFileWithin tree depth chain file = .error (cycleError chain file) := by
  cases depth <;> simp [Stack.ofFileWithin, closes]

theorem ofFileWithin_succ (fresh : chain.any file.same = false) :
    Stack.ofFileWithin tree (depth + 1) chain file = (Layer.ofFile tree file).bind fun layer =>
      (layer.presets.mapM (ofPreset tree depth (chain ++ [file]) layer.base)).bind fun presets =>
        .ok (presets.flatten ++ [layer]) := by
  simp only [Stack.ofFileWithin, fresh]
  rfl

theorem ofPreset_of_unfolds {name : String}
    (located : placeOfPreset tree file name = .ok presets.file)
    (loaded : Stack.ofFileWithin tree depth chain presets.file = .ok presets.layers) :
    ofPreset tree depth chain file name = .ok presets.layers := by
  simp [ofPreset, located, loaded, Except.bind]

theorem exists_trees {names : List String} {base : Path} {parts : List Stack}
    (loaded : List.Forall₂ (fun name stack => ofPreset tree depth chain base name = .ok stack)
      names parts)
    (unfolds : ∀ place stack, Stack.ofFileWithin tree depth chain place = .ok stack →
      ∃ presets, presets.file = place ∧ Unfolds tree chain presets ∧ presets.layers = stack) :
    ∃ below : List PresetTree,
      List.Forall₂ (fun name presets => placeOfPreset tree base name = .ok presets.file)
        names below ∧
      (∀ presets ∈ below, Unfolds tree chain presets) ∧
        below.map PresetTree.layers = parts := by
  induction loaded with
  | nil => exact ⟨[], .nil, by simp, rfl⟩
  | @cons name stack names parts first rest ih =>
    obtain ⟨below, located, unfolded, layers⟩ := ih
    obtain ⟨spot, place, first⟩ := bind_eq_ok.1 first
    obtain ⟨presets, rfl, isTree, rfl⟩ := unfolds spot stack first
    exact ⟨presets :: below, .cons place located,
      List.forall_mem_cons.2 ⟨isTree, unfolded⟩, by rw [List.map_cons, layers]⟩

theorem unfolds_of_ofFileWithin (loaded : Stack.ofFileWithin tree depth chain file = .ok stack) :
    ∃ presets, presets.file = file ∧ Unfolds tree chain presets ∧ presets.layers = stack := by
  induction depth generalizing chain file stack with
  | zero => simp [Stack.ofFileWithin] at loaded
  | succ depth ih =>
    cases fresh : chain.any file.same with
    | true => simp [ofFileWithin_of_mem fresh] at loaded
    | false =>
      rw [ofFileWithin_succ fresh] at loaded
      obtain ⟨layer, read, loaded⟩ := bind_eq_ok.1 loaded
      obtain ⟨parts, each, loaded⟩ := bind_eq_ok.1 loaded
      obtain rfl : parts.flatten ++ [layer] = stack := Except.ok.inj loaded
      obtain ⟨below, located, unfolded, rfl⟩ :=
        exists_trees (mapM_eq_ok.1 each) fun place stack => ih
      refine ⟨.node file layer below, rfl, .node fresh read located unfolded, ?_⟩
      rw [PresetTree.layers, PresetTree.layersOf_eq, List.flatMap_def]

theorem mapM_ofPreset {names : List String} {base : Path} {below : List PresetTree}
    (located : List.Forall₂ (fun name presets => placeOfPreset tree base name = .ok presets.file)
      names below)
    (loaded : ∀ presets ∈ below,
      Stack.ofFileWithin tree depth chain presets.file = .ok presets.layers) :
    names.mapM (ofPreset tree depth chain base) = .ok (below.map PresetTree.layers) := by
  rw [mapM_eq_ok]
  induction located with
  | nil => exact .nil
  | cons place rest ih =>
    obtain ⟨first, others⟩ := List.forall_mem_cons.1 loaded
    exact .cons (ofPreset_of_unfolds place first) (ih others)

-- On the way to a file there are no more files than the tree has, so there is depth left.
theorem ofFileWithin_of_unfolds (unfolds : Unfolds tree chain presets)
    (files : AreFiles tree chain) (isPlace : IsPlace presets.file)
    (deep : chain.length + depth = tree.fileCount + 1) :
    Stack.ofFileWithin tree depth chain presets.file = .ok presets.layers := by
  induction unfolds generalizing depth with
  | @node chain file layer below fresh read located unfolded ih =>
    have onward := files.concat isPlace fresh read
    have bound := onward.length_le
    rw [List.length_append, List.length_singleton] at bound
    obtain ⟨depth, rfl⟩ : ∃ less, depth = less + 1 := ⟨depth - 1, by omega⟩
    have loaded : ∀ presets ∈ below,
        Stack.ofFileWithin tree depth (chain ++ [file]) presets.file = .ok presets.layers := by
      intro presets member
      obtain ⟨name, -, place⟩ := exists_left_of_forall₂ located member
      refine ih presets member onward (isPlace_of_preset isPlace read place) ?_
      rw [List.length_append, List.length_singleton]
      omega
    rw [PresetTree.file, ofFileWithin_succ fresh, read]
    simp only [Except.bind, mapM_ofPreset located loaded, PresetTree.layers,
      PresetTree.layersOf_eq, List.flatMap_def]

theorem Visits.way (visited : Visits tree start chain file) (isPlace : IsPlace start) :
    AreFiles tree chain ∧ IsPlace file := by
  induction visited with
  | start => exact ⟨areFiles_nil tree, isPlace⟩
  | preset visited fresh read listed loaded located ih =>
    exact ⟨ih.1.concat ih.2 fresh read, isPlace_of_preset ih.2 read located⟩

section Faults

variable {before after : List String} {name : String}

theorem ofFileWithin_of_preset (files : AreFiles tree chain) (isPlace : IsPlace file)
    (fresh : chain.any file.same = false) (read : Layer.ofFile tree file = .ok layer)
    (listed : layer.presets = before ++ name :: after)
    (loaded : ∀ earlier ∈ before, Loads tree (chain ++ [file]) layer.base earlier)
    (deep : chain.length + (depth + 1) = tree.fileCount + 1)
    (fails : ofPreset tree depth (chain ++ [file]) layer.base name = .error error) :
    Stack.ofFileWithin tree (depth + 1) chain file = .error error := by
  have onward := files.concat isPlace fresh read
  have succeed : ∀ earlier ∈ before, ∃ stack,
      ofPreset tree depth (chain ++ [file]) layer.base earlier = .ok stack := by
    intro earlier member
    obtain ⟨presets, place, unfolds⟩ := loaded earlier member
    refine ⟨_, ofPreset_of_unfolds place (ofFileWithin_of_unfolds unfolds onward
      (isPlace_of_preset isPlace read place) ?_)⟩
    rw [List.length_append, List.length_singleton]
    omega
  have each : layer.presets.mapM (ofPreset tree depth (chain ++ [file]) layer.base) =
      .error error := mapM_eq_error.2 ⟨before, name, after, listed, succeed, fails⟩
  rw [ofFileWithin_succ fresh, read]
  simp only [Except.bind, each]

theorem Visits.fails (visited : Visits tree start chain file) (isPlace : IsPlace start)
    (deep : chain.length + depth = tree.fileCount + 1)
    (fails : Stack.ofFileWithin tree depth chain file = .error error) :
    Stack.ofFileWithin tree (Stack.presetDepth tree) [] start = .error error := by
  induction visited generalizing depth with
  | start =>
    obtain rfl : depth = tree.fileCount + 1 := by simpa using deep
    exact fails
  | @preset chain file place layer before after name visited fresh read listed loaded located ih =>
    obtain ⟨files, isFile⟩ := visited.way isPlace
    rw [List.length_append, List.length_singleton] at deep
    have further : chain.length + (depth + 1) = tree.fileCount + 1 := by omega
    refine ih further (ofFileWithin_of_preset files isFile fresh read listed loaded further ?_)
    simp [ofPreset, located, Except.bind, fails]

end Faults

theorem stops_of_error (visited : Visits tree start chain file) (isPlace : IsPlace start)
    (deep : chain.length + depth = tree.fileCount + 1)
    (fails : Stack.ofFileWithin tree depth chain file = .error error) : Stops tree start error := by
  induction depth generalizing chain file with
  | zero =>
    have bound := (visited.way isPlace).1.length_le
    omega
  | succ depth ih =>
    cases fresh : chain.any file.same with
    | true =>
      rw [ofFileWithin_of_mem fresh] at fails
      exact Except.error.inj fails ▸ .cycle visited fresh
    | false =>
      rw [ofFileWithin_succ fresh] at fails
      cases read : Layer.ofFile tree file with
      | error fault =>
        obtain rfl : fault = error := by simpa [read, Except.bind] using fails
        exact .unread visited fresh read
      | ok layer =>
        have each : layer.presets.mapM (ofPreset tree depth (chain ++ [file]) layer.base) =
            .error error := by
          cases each : layer.presets.mapM (ofPreset tree depth (chain ++ [file]) layer.base) with
          | error fault => simpa [read, each, Except.bind] using fails
          | ok parts => simp [read, each, Except.bind] at fails
        obtain ⟨before, name, after, listed, succeed, own⟩ := mapM_eq_error.1 each
        have loaded : ∀ earlier ∈ before, Loads tree (chain ++ [file]) layer.base earlier := by
          intro earlier member
          obtain ⟨stack, isOk⟩ := succeed earlier member
          obtain ⟨spot, place, isOk⟩ := bind_eq_ok.1 isOk
          obtain ⟨presets, rfl, unfolds, -⟩ := unfolds_of_ofFileWithin isOk
          exact ⟨presets, place, unfolds⟩
        unfold ofPreset at own
        cases located : placeOfPreset tree layer.base name with
        | error fault =>
          obtain rfl : fault = error := by simpa [located, Except.bind] using own
          exact .unlocated visited fresh read listed loaded located
        | ok place =>
          rw [located] at own
          refine ih (.preset visited fresh read listed loaded located) ?_ own
          rw [List.length_append, List.length_singleton]
          omega

theorem Visits.exists_depth (visited : Visits tree start chain file) (isPlace : IsPlace start) :
    ∃ depth, chain.length + (depth + 1) = tree.fileCount + 1 := by
  have bound := (visited.way isPlace).1.length_le
  exact ⟨tree.fileCount - chain.length, by omega⟩

theorem error_of_stops (stops : Stops tree start error) (isPlace : IsPlace start) :
    Stack.ofFileWithin tree (Stack.presetDepth tree) [] start = .error error := by
  cases stops with
  | cycle visited closes =>
    obtain ⟨depth, deep⟩ := visited.exists_depth isPlace
    exact visited.fails isPlace deep (ofFileWithin_of_mem closes)
  | unread visited fresh read =>
    obtain ⟨depth, deep⟩ := visited.exists_depth isPlace
    refine visited.fails isPlace deep ?_
    rw [ofFileWithin_succ fresh, read]
    rfl
  | unlocated visited fresh read listed loaded located =>
    obtain ⟨depth, deep⟩ := visited.exists_depth isPlace
    obtain ⟨files, isFile⟩ := visited.way isPlace
    refine visited.fails isPlace deep
      (ofFileWithin_of_preset files isFile fresh read listed loaded deep ?_)
    simp [ofPreset, located, Except.bind]

theorem importError_ne (tree : FileTree) (path : Path) (details : String) (names : List String) :
    importError tree path details ≠ .circularImport names := by
  unfold importError
  split <;> exact nofun

theorem ofFile_ne_circularImport (tree : FileTree) (file : Path) (names : List String) :
    Layer.ofFile tree file ≠ .error (.circularImport names) := by
  unfold Layer.ofFile
  cases text : tree.readText file with
  | error fault =>
    intro same
    exact importError_ne tree file fault.message names (Except.error.inj same)
  | ok content =>
    cases settings : Toml.read? content <;>
      simp [Except.mapError, bind, Except.bind, Layer.read, settings, pure, Except.pure]

theorem placeOfPreset_ne_circularImport (tree : FileTree) (base : Path) (name : String)
    (names : List String) : placeOfPreset tree base name ≠ .error (.circularImport names) := by
  unfold placeOfPreset placeOf
  dsimp only
  cases found : tree.canonicalize (presetPath base name) with
  | ok place => exact nofun
  | error fault =>
    intro same
    exact importError_ne tree _ fault.message names (Except.error.inj same)

theorem stops_circularImport_iff {names : List String} :
    Stops tree start (.circularImport names) ↔ ∃ chain file, Visits tree start chain file ∧
      chain.any file.same = true ∧ names = (chain ++ [file]).map shortName := by
  constructor
  · generalize same : SettingsError.circularImport names = error
    intro stops
    cases stops with
    | @cycle chain file visited closes =>
      exact ⟨chain, file, visited, closes, SettingsError.circularImport.inj same⟩
    | unread visited fresh read => exact absurd (same ▸ read) (ofFile_ne_circularImport tree _ names)
    | unlocated visited fresh read listed loaded located =>
      exact absurd (same ▸ located) (placeOfPreset_ne_circularImport tree _ _ names)
  · rintro ⟨chain, file, visited, closes, rfl⟩
    exact .cycle visited closes

theorem ofFile_of_canonicalize (found : tree.canonicalize path = .ok start) :
    Stack.ofFile tree path = Stack.ofFileWithin tree (Stack.presetDepth tree) [] start := by
  simp only [Stack.ofFile, placeOf, found, Except.mapError]
  rfl

theorem ofFile_iff_unfolds (found : tree.canonicalize path = .ok start) (isPlace : IsPlace start) :
    Stack.ofFile tree path = .ok stack ↔
      ∃ presets, presets.file = start ∧ Unfolds tree [] presets ∧ presets.layers = stack := by
  rw [ofFile_of_canonicalize found]
  constructor
  · exact unfolds_of_ofFileWithin
  · rintro ⟨presets, rfl, unfolds, rfl⟩
    exact ofFileWithin_of_unfolds unfolds (areFiles_nil tree) isPlace (by simp [Stack.presetDepth])

theorem ofFile_iff_stops (found : tree.canonicalize path = .ok start) (isPlace : IsPlace start) :
    Stack.ofFile tree path = .error error ↔ Stops tree start error := by
  rw [ofFile_of_canonicalize found]
  exact ⟨stops_of_error .start isPlace (by simp [Stack.presetDepth]),
    fun stops => error_of_stops stops isPlace⟩

/-- Loading a file ends, with the layers of the tree of its presets in post-order or with the first
fault that the traversal of its presets comes to; it is a circular import exactly if that is a file
on the way to itself, and the files on the way are then named in order. -/
theorem ofFile_traverses_presets {tree : FileTree}
    (home : ∀ name ∈ tree.workingDirectory, IsName name) (path : Path) :
    (∀ fault, tree.canonicalize path = .error fault → Stack.ofFile tree path =
      .error (.inaccessible path ("Failed to resolve path: " ++ fault.message))) ∧
    ∀ start, tree.canonicalize path = .ok start →
      (∀ stack, Stack.ofFile tree path = .ok stack ↔
        ∃ presets, presets.file = start ∧ Unfolds tree [] presets ∧ presets.layers = stack) ∧
      (∀ error, Stack.ofFile tree path = .error error ↔ Stops tree start error) ∧
      (∀ names, Stack.ofFile tree path = .error (.circularImport names) ↔
        ∃ chain file, Visits tree start chain file ∧ chain.any file.same = true ∧
          names = (chain ++ [file]).map shortName) ∧
      ∀ stack, Stack.ofFile tree path = .ok stack → ∀ layer ∈ stack, ∃ file,
        Layer.ofFile tree file = .ok layer ∧ layer.origin = some file ∧
          layer.base = file.directory := by
  refine ⟨fun fault missing => ?_, fun start found => ?_⟩
  · simp only [Stack.ofFile, placeOf, missing, Except.mapError]
    rfl
  · have isPlace := isPlace_of_canonicalize (.inr home) found
    refine ⟨fun stack => ofFile_iff_unfolds found isPlace,
      fun error => ofFile_iff_stops found isPlace,
      fun names => (ofFile_iff_stops found isPlace).trans stops_circularImport_iff,
      fun stack loaded layer member => ?_⟩
    obtain ⟨presets, -, unfolds, rfl⟩ := (ofFile_iff_unfolds found isPlace).1 loaded
    obtain ⟨file, read⟩ := unfolds.read_of_mem layer member
    exact ⟨file, read, Layer.of_ofFile read⟩

def sharedPreset : FileTree :=
  ⟨[("a.toml", .file "presets = [\"b\"]\n[theme]\nring = \"wide\"\n".toUTF8),
    ("b.toml", .file "[theme]\nring = \"narrow\"\n".toUTF8),
    ("c.toml", .file "presets = [\"b\"]\n".toUTF8),
    ("left.toml", .file "presets = [\"b\", \"right\"]\n".toUTF8),
    ("main.toml", .file "presets = [\"a\", \"c\"]\n".toUTF8),
    ("right.toml", .file "presets = [\"left\", \"none\"]\n".toUTF8)], []⟩

theorem ofFile_of_sharedPreset :
    (∃ stack presets, Stack.ofFile sharedPreset ⟨"main.toml"⟩ = .ok stack ∧
      stack.map Layer.origin = [some ⟨"/b.toml"⟩, some ⟨"/a.toml"⟩, some ⟨"/b.toml"⟩,
        some ⟨"/c.toml"⟩, some ⟨"/main.toml"⟩] ∧
      presets.file = ⟨"/main.toml"⟩ ∧ Unfolds sharedPreset [] presets ∧
        presets.layers = stack) ∧
    ∃ chain file, Visits sharedPreset ⟨"/left.toml"⟩ chain file ∧ chain.any file.same = true ∧
      ["left.toml", "right.toml", "left.toml"] = (chain ++ [file]).map shortName := by
  have home : ∀ name ∈ sharedPreset.workingDirectory, IsName name := by simp [sharedPreset]
  constructor
  · have origins : (Stack.ofFile sharedPreset ⟨"main.toml"⟩).map (List.map Layer.origin) =
        .ok [some ⟨"/b.toml"⟩, some ⟨"/a.toml"⟩, some ⟨"/b.toml"⟩, some ⟨"/c.toml"⟩,
          some ⟨"/main.toml"⟩] := by decide +kernel
    have found : sharedPreset.canonicalize ⟨"main.toml"⟩ = .ok ⟨"/main.toml"⟩ := by decide +kernel
    have traverses := (ofFile_traverses_presets home ⟨"main.toml"⟩).2 _ found
    cases loaded : Stack.ofFile sharedPreset ⟨"main.toml"⟩ with
    | error _ => cases loaded ▸ origins
    | ok stack =>
      rw [loaded] at origins
      obtain ⟨presets, same, unfolds, layers⟩ := (traverses.1 stack).1 loaded
      exact ⟨stack, presets, rfl, Except.ok.inj origins, same, unfolds, layers⟩
  · have fails : (Stack.ofFile sharedPreset ⟨"left.toml"⟩).map (fun _ => ()) =
        .error (.circularImport ["left.toml", "right.toml", "left.toml"]) := by decide +kernel
    have found : sharedPreset.canonicalize ⟨"left.toml"⟩ = .ok ⟨"/left.toml"⟩ := by decide +kernel
    have traverses := (ofFile_traverses_presets home ⟨"left.toml"⟩).2 _ found
    refine (traverses.2.2.1 _).1 ?_
    cases loaded : Stack.ofFile sharedPreset ⟨"left.toml"⟩ with
    | ok _ => cases loaded ▸ fails
    | error error =>
      rw [loaded] at fails
      exact congrArg Except.error (Except.error.inj fails)

end UtilityCss.Config
