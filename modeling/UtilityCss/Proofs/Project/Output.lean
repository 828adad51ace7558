import UtilityCss.Proofs.Project.ThemeFiles
import UtilityCss.Proofs.Source.ProjectRoot
import UtilityCss.Proofs.Source.Stability

set_option autoImplicit false

namespace UtilityCss

open Source UtilityCss.Path FileTree

namespace Source

/-- Whether a pattern stands for the path that it spells, and not for what lies below it. -/
def namesFile (pattern : String) : Bool :=
  hasGlobMark pattern || (Path.mk pattern).extension?.isSome

section Below

variable {texts : List String} {name : String} (steps : ∀ text ∈ texts, IsStep text)
  (isName : IsName name)
  (normal : (pathOf (texts ++ [name])).normalize = pathOf (texts ++ [name]))
  (unescaped : '\\' ∉ (pathOf (texts ++ [name])).spelling.toList)

include steps isName normal unescaped

theorem globBelow_name :
    globBelow (pathOf texts) name =
      if namesFile name then (pathOf (texts ++ [name])).spelling
      else String.ofList (Text.dropWhileEnd (· = '/') (pathOf (texts ++ [name])).spelling.toList ++
        Glob.allBelow) := by
  have joined : ((pathOf texts).join ⟨name⟩).normalize = pathOf (texts ++ [name]) :=
    (congrArg Path.normalize (child_pathOf steps isName.toIsStep)).trans normal
  rw [globBelow, joined, map_unescape unescaped, String.ofList_toList]
  rfl

theorem globBelow_of_namesFile (file : namesFile name = true) :
    globBelow (pathOf texts) name = (pathOf (texts ++ [name])).spelling := by
  rw [globBelow_name steps isName normal unescaped, if_pos file]

theorem toList_globBelow_of_not_namesFile (bare : namesFile name = false) :
    (globBelow (pathOf texts) name).toList =
      (pathOf (texts ++ [name])).spelling.toList ++ Glob.allBelow := by
  have all : ∀ text ∈ texts ++ [name], IsStep text :=
    List.forall_mem_append.2 ⟨steps, List.forall_mem_singleton.2 isName.toIsStep⟩
  have noSlash : (pathOf (texts ++ [name])).spelling.toList.getLast? ≠ some '/' := by
    simp [ends_in_slash_iff all]
  have kept : Text.dropWhileEnd (· = '/') (pathOf (texts ++ [name])).spelling.toList =
      (pathOf (texts ++ [name])).spelling.toList := by
    obtain ⟨start, c, spelled⟩ : ∃ start c,
        (pathOf (texts ++ [name])).spelling.toList = start ++ [c] := by
      rw [toList_pathOf]
      exact ⟨_, _, (List.dropLast_append_getLast (List.cons_ne_nil _ _)).symm⟩
    rw [spelled, List.getLast?_concat] at noSlash
    have other : c ≠ '/' := fun same => noSlash (congrArg some same)
    simp [spelled, Text.dropWhileEnd, other]
  rw [globBelow_name steps isName normal unescaped, bare, if_neg Bool.false_ne_true, kept,
    String.toList_ofList]

end Below

end Source

namespace SourceCatalog

variable {catalog : SourceCatalog} {pattern : String} {base path : Path}

theorem exclusions_exclude :
    (∃ entry ∈ (catalog.exclude pattern base).exclusions, SourceSelector.Covers entry path) ↔
      (∃ entry ∈ catalog.exclusions, SourceSelector.Covers entry path) ∨
        SourceSelector.Covers ⟨pattern, base, .negated⟩ path := by
  unfold SourceCatalog.exclude insert
  split_ifs with seen
  · -- The pattern is excluded already, perhaps from another spelling of the directory.
    obtain ⟨entry, member, same⟩ := List.any_eq_true.1 seen
    have outlines := Entry.outline_of_same same
    simp only [Entry.outline, Prod.mk.injEq] at outlines
    have isExclusion : entry ∈ catalog.exclusions :=
      SourceSelector.mem_entriesOf.2 ⟨member, outlines.2.symm⟩
    refine (or_iff_left_of_imp fun covers => ?_).symm
    exact ⟨entry, isExclusion, (SourceSelector.covers_congr outlines.1).1 covers⟩
  · simp [exclusions, entriesOf, or_and_right, exists_or]

theorem subset_exclusions : catalog.exclusions ⊆ (catalog.exclude pattern base).exclusions := by
  unfold SourceCatalog.exclude insert
  split_ifs
  · exact List.Subset.refl _
  · simp [exclusions, entriesOf]

end SourceCatalog

namespace SourceSelector

variable {tree : FileTree} {catalog : SourceCatalog} {selector bare : SourceSelector}
  {entries : List Entry} {pattern : String} {base path : Path}

theorem exists_readGlobs_iff : (∃ globs, readGlobs entries = .ok globs) ↔
    ∀ entry ∈ entries, ∃ glob, Glob.read false entry.glob = .ok glob := by
  induction entries with
  | nil => simp [readGlobs]
  | cons entry rest ih =>
    rw [List.forall_mem_cons, ← ih, readGlobs]
    cases Glob.read false entry.glob with
    | error fault => simp
    | ok glob => cases readGlobs rest <;> simp [Except.map]

theorem exists_of_exclude (compiled : ofCatalog tree (catalog.exclude pattern base) = .ok selector) :
    ∃ bare, ofCatalog tree catalog = .ok bare ∧ bare.defaults = selector.defaults ∧
      bare.declared = selector.declared ∧ bare.ignoreFiles = selector.ignoreFiles := by
  obtain ⟨defaults, declared, excluded, ignoreFiles, -, -⟩ := ofCatalog_eq_ok.1 compiled
  have kept {origin : Origin} (included : Origin.negated ≠ origin) :
      (catalog.exclude pattern base).entriesOf origin = catalog.entriesOf origin :=
    SourceCatalog.entriesOf_insert_of_ne included
  rw [kept (by decide)] at defaults declared ignoreFiles
  obtain ⟨globs, kept⟩ := exists_readGlobs_iff.2 fun entry member =>
    exists_readGlobs_iff.1 ⟨_, excluded⟩ entry (SourceCatalog.subset_exclusions member)
  exact ⟨⟨selector.defaults, selector.declared, globs, selector.ignoreFiles, walksOf catalog,
    catalog.roots⟩, ofCatalog_eq_ok.2 ⟨defaults, declared, kept, ignoreFiles, rfl, rfl⟩, rfl, rfl,
    rfl⟩

theorem not_selects_of_excluded
    (compiled : ofCatalog tree (catalog.exclude pattern base) = .ok selector)
    (covers : Covers ⟨pattern, base, .negated⟩ path.normalize) :
    selector.selects? path = some false := by
  have excluded : matchesAny selector.excluded path.normalize = true :=
    ((compiles_of_ofCatalog compiled).excluded _).2
      (SourceCatalog.exclusions_exclude.2 (.inr covers))
  rw [selects?, if_pos excluded]

theorem selects_of_not_excluded
    (compiled : ofCatalog tree (catalog.exclude pattern base) = .ok selector)
    (apart : ¬ Covers ⟨pattern, base, .negated⟩ path.normalize) :
    ∃ bare, ofCatalog tree catalog = .ok bare ∧ selector.selects? path = bare.selects? path := by
  obtain ⟨bare, isBare, defaults, declared, ignoreFiles⟩ := exists_of_exclude compiled
  have excluded : matchesAny selector.excluded path.normalize =
      matchesAny bare.excluded path.normalize := by
    rw [Bool.eq_iff_iff, (compiles_of_ofCatalog compiled).excluded,
      (compiles_of_ofCatalog isBare).excluded, SourceCatalog.exclusions_exclude]
    exact or_iff_left apart
  refine ⟨bare, isBare, ?_⟩
  simp only [selects?, excluded, defaults, declared, isIgnored?, ignoreFiles]

end SourceSelector

namespace SourceSelector

variable {texts : List String} {name : String} {path : Path} (steps : ∀ text ∈ texts, IsStep text)
  (isName : IsName name)
  (normal : (pathOf (texts ++ [name])).normalize = pathOf (texts ++ [name]))

include steps isName normal

theorem covers_of_namesFile (file : namesFile name = true)
    (clean : ∀ c ∈ (pathOf (texts ++ [name])).spelling.toList, Glob.IsUnbracketed c) :
    Covers ⟨name, pathOf texts, .negated⟩ (pathOf (texts ++ [name])) := by
  have unescaped : '\\' ∉ (pathOf (texts ++ [name])).spelling.toList := fun escape =>
    absurd (clean _ escape) (by decide)
  obtain ⟨glob, read, isMatch⟩ := Glob.exists_isMatch_self false (toList_pathOf _) clean
  refine ⟨glob, ?_, isMatch⟩
  rwa [Entry.glob, globBelow_of_namesFile steps isName normal unescaped file]

theorem not_covers_of_not_namesFile (bare : namesFile name = false)
    (plain : ∀ c ∈ (pathOf (texts ++ [name])).spelling.toList, Glob.IsPlain c ∧ c ≠ '\x7d') :
    ¬ Covers ⟨name, pathOf texts, .negated⟩ (pathOf (texts ++ [name])) := by
  rintro ⟨glob, read, isMatch⟩
  have unescaped : '\\' ∉ (pathOf (texts ++ [name])).spelling.toList := fun escape =>
    absurd (plain _ escape) (by decide)
  obtain ⟨below, readBelow, matchesBelow⟩ := Glob.exists_isMatch_below false
    (fun c member => (plain c member).1) (fun closing => (plain _ closing).2 rfl)
    (toList_globBelow_of_not_namesFile steps isName normal unescaped bare)
  obtain rfl : glob = below := Except.ok.inj (read.symm.trans readBelow)
  obtain ⟨behind, spelled⟩ := (matchesBelow _).1 isMatch
  simpa using congrArg List.length spelled

end SourceSelector

namespace ProjectInputs

variable {tree : FileTree} {places : ProjectPlaces} {inputs : ProjectInputs} {path output : Path}
  {name : String} {texts : List String}

theorem exists_of_fileName? (absolute : path.isAbsolute = true) (normal : path.normalize = path)
    (named : path.fileName? = some name) :
    ∃ texts, (∀ text ∈ texts, IsStep text) ∧ IsName name ∧ path = pathOf (texts ++ [name]) := by
  obtain ⟨all, steps, same⟩ := normalize_eq_pathOf absolute
  obtain rfl : path = pathOf all := normal.symm.trans same
  rcases List.eq_nil_or_concat all with rfl | ⟨texts, last, rfl⟩
  · have none : (pathOf []).fileName? = none := by decide
    cases none.symm.trans named
  · rw [List.concat_eq_append] at steps named ⊢
    obtain ⟨before, own⟩ := List.forall_mem_append.1 steps
    have step := own last (List.mem_singleton_self last)
    rw [fileName?, components_pathOf steps, List.map_append, List.map_singleton, ← List.cons_append,
      List.getLast?_concat] at named
    by_cases up : last = ".."
    · simp [stepComponent, up] at named
    · have isName : IsName last := ⟨step, up⟩
      rw [isName.component] at named
      obtain rfl := Option.some.inj named
      exact ⟨texts, before, isName, rfl⟩

theorem catalogOf_output (steps : ∀ text ∈ texts, IsStep text) (isName : IsName name)
    (isOutput : places.output = some (pathOf (texts ++ [name]))) (sheet : Stylesheet)
    (layers : Config.Stack) :
    catalogOf places sheet layers =
      (catalogOf { places with output := none } sheet layers).exclude name (pathOf texts) := by
  simp only [catalogOf, excludeOutput, isOutput, Option.bind_some, Option.bind_none,
    parent?_pathOf steps isName.toIsStep, fileName?_pathOf steps isName]

theorem normalize_of_location (absolute : path.isAbsolute = true)
    (other : output.isAbsolute = true) (normal : output.normalize = output)
    (same : path.location = output.location) (different : path.normalize ≠ output) :
    path.normalize = pathOf (".." :: output.location.names) ∨
      output = pathOf (".." :: output.location.names) := by
  obtain ⟨first, -, spells, equal⟩ := exists_spelling absolute
  obtain ⟨second, -, spelled, equals⟩ := exists_spelling other
  rw [normal] at equals
  rw [same] at spells
  rcases spells with rfl | rfl
  · rcases spelled with rfl | rfl
    · exact absurd (equal.trans equals.symm) different
    · exact .inr equals
  · exact .inl equal

/-- An output whose name stands for the file is no source and is not scanned, but for a spelling
that climbs above the root. If its name stands for what lies below it, it is a source if it were one
without being the output. Neither is said of all names with characters that mean something in a
pattern. -/
theorem output_excluded (tree : FileTree) (places : ProjectPlaces) (inputs : ProjectInputs)
    (output : Path) (name : String) (loaded : read tree places = .ok inputs)
    (isOutput : places.output = some output) (absolute : output.isAbsolute = true)
    (normal : output.normalize = output) (named : output.fileName? = some name) :
    (namesFile name = true → (∀ c ∈ output.spelling.toList, Glob.IsUnbracketed c) →
      inputs.selector.selects? output = some false ∧
      ∀ other, ∀ path ∈ inputs.selector.files other, path.normalize ≠ output ∧
        (path.isAbsolute = true → path.location = output.location →
          path.normalize = pathOf (".." :: output.location.names) ∨
            output = pathOf (".." :: output.location.names))) ∧
    (namesFile name = false → (∀ c ∈ output.spelling.toList, Glob.IsPlain c ∧ c ≠ '\x7d') →
      ∃ bare, read tree { places with output := none } = .ok bare ∧
        inputs.selector.selects? output = bare.selector.selects? output) := by
  obtain ⟨texts, steps, isName, rfl⟩ := exists_of_fileName? absolute normal named
  have isRead := read_iff.1 loaded
  have compiled := isRead.selector
  rw [isRead.catalog, catalogOf_output steps isName isOutput] at compiled
  constructor
  · intro file clean
    have covers := SourceSelector.covers_of_namesFile steps isName normal file clean
    have rejected {path : Path} (same : path.normalize = pathOf (texts ++ [name])) :
        inputs.selector.selects? path = some false :=
      SourceSelector.not_selects_of_excluded compiled (same ▸ covers)
    refine ⟨rejected normal, fun other path member => ?_⟩
    have accepted := of_decide_eq_true (SourceSelector.mem_of_mem_collect member).1
    have different : path.normalize ≠ pathOf (texts ++ [name]) := fun same =>
      absurd ((rejected same).symm.trans accepted) (by decide)
    exact ⟨different, fun isAbsolute same =>
      normalize_of_location isAbsolute absolute normal same different⟩
  · intro bareName plain
    have apart := SourceSelector.not_covers_of_not_namesFile steps isName normal bareName plain
    rw [← normal] at apart
    obtain ⟨bare, isBare, same⟩ := SourceSelector.selects_of_not_excluded compiled apart
    exact ⟨⟨inputs.stylesheet, inputs.layers, _, bare, inputs.themeFiles⟩,
      read_iff.2 ⟨isRead.stylesheet, isRead.layers, rfl, isBare, isRead.themeFiles⟩, same⟩

-- A project with a declared source that matches its output, and one whose output has a bare name.
private def stall : FileTree :=
  ⟨[("out", .file "flex".toUTF8), ("stall.css", .file "@source \"./*.css\";\n".toUTF8)], []⟩

private def stallPlaces (output : Path) : ProjectPlaces := ⟨⟨"/stall.css"⟩, some output, ⟨"/"⟩⟩

theorem output_excluded_stall :
    (∃ inputs, read stall (stallPlaces ⟨"/a?.css"⟩) = .ok inputs ∧
      inputs.selector.selects? ⟨"/stall.css"⟩ = some true ∧
      inputs.selector.selects? ⟨"/a?.css"⟩ = some false) ∧
    ∃ inputs bare, read stall (stallPlaces ⟨"/out"⟩) = .ok inputs ∧
      read stall { stallPlaces ⟨"/out"⟩ with output := none } = .ok bare ∧
      inputs.selector.selects? ⟨"/out"⟩ = bare.selector.selects? ⟨"/out"⟩ ∧
      inputs.selector.selects? ⟨"/out"⟩ = some true := by
  constructor
  · have reads : (read stall (stallPlaces ⟨"/a?.css"⟩)).map (·.selector.selects? ⟨"/stall.css"⟩) =
        .ok (some true) := by decide +kernel
    obtain ⟨inputs, loaded, selected⟩ := map_eq_ok.1 reads
    have excluded := (output_excluded stall (stallPlaces ⟨"/a?.css"⟩) inputs ⟨"/a?.css"⟩ "a?.css"
      loaded rfl (by decide) (by decide) (by decide)).1 (by decide) (by simp [Glob.IsUnbracketed])
    exact ⟨inputs, loaded, selected, excluded.1⟩
  · have reads : (read stall (stallPlaces ⟨"/out"⟩)).map (·.selector.selects? ⟨"/out"⟩) =
        .ok (some true) := by decide +kernel
    obtain ⟨inputs, loaded, selected⟩ := map_eq_ok.1 reads
    obtain ⟨bare, isBare, same⟩ := (output_excluded stall (stallPlaces ⟨"/out"⟩) inputs ⟨"/out"⟩
      "out" loaded rfl (by decide) (by decide) (by decide)).2 (by decide) (by simp [Glob.IsPlain])
    exact ⟨inputs, bare, loaded, isBare, same, selected⟩

end ProjectInputs

end UtilityCss
