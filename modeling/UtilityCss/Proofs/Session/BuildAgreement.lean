import UtilityCss.Proofs.Project.Catalog
import UtilityCss.Proofs.Session.Coverage
import UtilityCss.Proofs.Session.Isolation
import UtilityCss.Proofs.Source.ScannedFiles

set_option autoImplicit false

namespace UtilityCss

open UtilityCss.Path FileTree Source

variable {tree : FileTree} {paths : ProjectPaths} {places : ProjectPlaces} {inputs : ProjectInputs}
  {generator : Generator} {refused : Option String} {path : Path} {token : String}

theorem Generator.bundled_congr {pool other : CandidatePool} (same : pool.items = other.items)
    (theme : Theme) : bundled refused theme pool = bundled refused theme other := by
  obtain ⟨items, revision⟩ := pool
  obtain ⟨others, later⟩ := other
  obtain rfl : items = others := same
  cases refused <;> rfl

theorem ProjectInputs.render_congr {pool other : CandidatePool} (same : pool.items = other.items)
    {artifact : Artifact} {revision : Nat}
    (made : inputs.render (Generator.bundled refused) pool revision = .ok artifact) (later : Nat) :
    ∃ again, inputs.render (Generator.bundled refused) other later = .ok again ∧
      again.css = artifact.css ∧ again.passthrough = artifact.passthrough := by
  rcases render_eq_ok.1 made with ⟨isRoot, theme, css, resolved, written, rfl⟩ | ⟨plain, rfl⟩
  · rw [Generator.bundled_congr same] at written
    exact ⟨_, render_eq_ok.2 (.inl ⟨isRoot, theme, css, resolved, written, rfl⟩), rfl, rfl⟩
  · exact ⟨_, render_eq_ok.2 (.inr ⟨plain, rfl⟩), rfl, rfl⟩

def ProjectInputs.scanned (inputs : ProjectInputs) (tree : FileTree) : CandidatePool :=
  CandidatePool.ofList (Candidate.ofFiles tree (inputs.selector.files tree)).candidates

theorem ProjectInputs.mem_scanned_iff : token ∈ (inputs.scanned tree).items ↔
    ∃ path ∈ inputs.selector.files tree, Candidate.IsIn tree path token := by
  rw [scanned, CandidatePool.ofList, CandidatePool.mem_merge, Candidate.mem_ofFiles_iff]
  simp [CandidatePool.empty]

theorem ProjectInputs.increasing_scanned (inputs : ProjectInputs) (tree : FileTree) :
    Ordered.Increasing (inputs.scanned tree).items :=
  CandidatePool.increasing_merge CandidatePool.increasing_empty _

theorem Build.compile_eq (generator : Generator)
    (loaded : ProjectInputs.read tree places = .ok inputs) :
    compile tree places generator =
      (inputs.render generator (inputs.scanned tree) 0).map fun artifact =>
        { artifact := artifact
          diagnostics := (Candidate.ofFiles tree (inputs.selector.files tree)).failures.map
            (Diagnostic.ofFault .build)
          files := (inputs.selector.files tree).length } := by
  simp only [compile, survey, loaded, bind, Except.bind, pure, Except.pure, ProjectInputs.render]
  cases inputs.themeIfNeeded with
  | error error => rfl
  | ok theme =>
    simp only [ProjectInputs.scanned]
    cases Artifact.render generator inputs.stylesheet theme
      (CandidatePool.ofList (Candidate.ofFiles tree (inputs.selector.files tree)).candidates) 0 <;> rfl

theorem Build.report_of_compile {report : Build.Report} (located : paths.locate tree = .ok places)
    (silent : places.output = none) (compiled : compile tree places generator = .ok report) :
    (Build.run tree paths generator).report = .ok report := by
  simp only [run, located, compiled, deliver, silent]

theorem Build.render_of_run {report : Build.Report} (located : paths.locate tree = .ok places)
    (loaded : ProjectInputs.read tree places = .ok inputs)
    (built : (Build.run tree paths generator).report = .ok report) :
    inputs.render generator (inputs.scanned tree) 0 = .ok report.artifact := by
  have compiled : compile tree places generator = .ok report := by
    simp only [run, located] at built
    cases made : compile tree places generator with
    | error error => simp [made] at built
    | ok other =>
      -- A file that cannot be written would end the build.
      simp only [made, deliver] at built
      split at built
      · exact built
      · split at built
        · exact built
        · cases built
  rw [compile_eq generator loaded] at compiled
  obtain ⟨artifact, made, rfl⟩ := map_eq_ok.1 compiled
  exact made

theorem Candidate.isIn_iff_of_read {other : Path} {content : ByteArray}
    (one : tree.readBytes path = .ok content) (two : tree.readBytes other = .ok content) :
    IsIn tree path token ↔ IsIn tree other token := by
  simp only [IsIn, ofFile, one, two]
  cases Utf8.decode content <;> simp

theorem ProjectPlaces.page_of_isAbsolute (absolute : path.isAbsolute = true) :
    places.page path = path.normalize := by
  rw [page, join, if_pos (.inl absolute)]

theorem ProjectPlaces.isIn_page_iff {content : ByteArray} (absolute : path.isAbsolute = true)
    (read : tree.readBytes path = .ok content) :
    Candidate.IsIn tree (places.page path) token ↔ Candidate.IsIn tree path token := by
  rw [page_of_isAbsolute absolute]
  exact Candidate.isIn_iff_of_read (readBytes_normalize absolute read) read

theorem SourceSelector.selects_congr {selector : SourceSelector} {other : Path}
    (same : path.normalize = other.normalize) : selector.selects path = selector.selects other := by
  have answers : selector.selects? path = selector.selects? other := by simp only [selects?, same]
  rw [selects, selects, answers]

theorem SourceSelector.not_same_of_selects {selector : SourceSelector} {input : Path}
    (isPlace : Config.IsPlace input) (absolute : path.isAbsolute = true)
    (apart : selector.selects path ≠ selector.selects input) :
    path.normalize.same input = false := by
  rw [Bool.eq_false_iff]
  intro same
  -- The same path in normal form is the input itself, and that is selected alike.
  obtain ⟨names, rfl, areNames⟩ := isPlace
  have normal := normalize_pathOf areNames
  refine apart (selects_congr (normalize_eq_of_same absolute ?_ (normal.symm ▸ same)))
  exact isAbsolute_pathOf names

theorem ProjectPlaces.asks_of_selects {selector : SourceSelector} {entries : List Path}
    (isPlace : Config.IsPlace places.input) (unselected : selector.selects places.input = false)
    (absolute : path.isAbsolute = true) (selected : selector.selects path = true)
    (member : path ∈ entries) : places.Asks entries (places.page path) := by
  have apart : selector.selects path ≠ selector.selects places.input := by
    rw [unselected, selected]
    exact Bool.noConfusion
  refine ⟨?_, path, member, rfl⟩
  rw [page_of_isAbsolute absolute]
  exact SourceSelector.not_same_of_selects isPlace absolute apart

namespace DevState

open LiveSession

variable {entries : List Path}

theorem candidates_of_sources (generator : Generator) (proper : tree.Proper)
    (located : paths.locate tree = .ok places)
    (loaded : ProjectInputs.read tree places = .ok inputs)
    (unselected : inputs.selector.selects places.input = false)
    (short : ∀ path ∈ inputs.selector.files tree, path.spelling.utf8ByteSize ≤ longestPath)
    (all : ∀ path, path ∈ entries ↔ path ∈ inputs.selector.files tree) :
    (answering tree places generator entries).candidates.items = (inputs.scanned tree).items := by
  have compiles := SourceSelector.compiles_of_ofCatalog (ProjectInputs.read_iff.1 loaded).selector
  have anchored := ProjectInputs.isAnchored_catalog located loaded
  obtain ⟨root, input⟩ := ProjectPaths.isPlace_of_locate located
  have asked := (asked_opened generator loaded).requests (isAbsolute_of_isPlace root) entries
  have absolute (path : Path) (member : path ∈ inputs.selector.files tree) :
      path.isAbsolute = true := by
    obtain ⟨texts, -, rfl⟩ :=
      SourceSelector.exists_texts_of_mem_files proper compiles anchored member
    exact isAbsolute_pathOf texts
  have same (path : Path) (member : path ∈ inputs.selector.files tree) (token : String) :
      Candidate.IsIn tree (places.page path) token ↔ Candidate.IsIn tree path token := by
    obtain ⟨content, read⟩ :=
      SourceSelector.readBytes_of_mem_files proper compiles anchored member (short path member)
    exact ProjectPlaces.isIn_page_iff (absolute path member) read
  refine asked.increasing.eq_of_mem_iff (inputs.increasing_scanned tree) fun token => ?_
  rw [asked.candidates, ProjectInputs.mem_scanned_iff, List.nil_append]
  constructor
  · rintro ⟨path, declared | ⟨-, entry, member, rfl⟩, told⟩
    · exact ⟨path, SourceSelector.mem_files_of_declared proper compiles anchored declared, told⟩
    · exact ⟨entry, (all entry).1 member, (same entry ((all entry).1 member) token).1 told⟩
  · rintro ⟨path, member, told⟩
    have asks := ProjectPlaces.asks_of_selects input unselected (absolute path member)
      (SourceSelector.mem_of_mem_collect member).1 ((all path).2 member)
    exact ⟨places.page path, .inr asks, (same path member token).2 told⟩

theorem reply_of_render (absolute : places.root.isAbsolute = true)
    (loaded : ProjectInputs.read tree places = .ok inputs) {artifact : Artifact}
    (rendered : inputs.render generator (answering tree places generator entries).candidates
      (answering tree places generator entries).themeRevision = .ok artifact) :
    (answering tree places generator entries).reply = .ok artifact := by
  have start := asked_opened generator loaded
  have asked := start.requests absolute entries
  have same := (loaded_run start.settled (loaded_opened tree places generator)
    (entries.map .request)).generator
  refine reply_eq_ok.2 (asked.settled.rendered artifact ?_)
  rw [rendering, asked.loaded, Option.map_some, same]
  exact congrArg some rendered

/-- When every source of a project was asked for, in whatever order and however often, a dev session
replies with the stylesheet that a build of the same files makes. -/
theorem replies_as_built (tree : FileTree) (paths : ProjectPaths) (places : ProjectPlaces)
    (inputs : ProjectInputs) (refused : Option String) (report : Build.Report) (entries : List Path)
    (proper : tree.Proper) (located : paths.locate tree = .ok places)
    (loaded : ProjectInputs.read tree places = .ok inputs)
    (built : (Build.run tree paths (Generator.bundled refused)).report = .ok report)
    (unselected : inputs.selector.selects places.input = false)
    (short : ∀ path ∈ inputs.selector.files tree, path.spelling.utf8ByteSize ≤ longestPath)
    (all : ∀ path, path ∈ entries ↔ path ∈ inputs.selector.files tree) :
    ∃ artifact, (answering tree places (Generator.bundled refused) entries).reply = .ok artifact ∧
      artifact.css = report.artifact.css ∧ artifact.passthrough = report.artifact.passthrough := by
  have absolute := isAbsolute_of_isPlace (ProjectPaths.isPlace_of_locate located).1
  have items := candidates_of_sources (Generator.bundled refused) proper located loaded unselected
    short all
  have made := Build.render_of_run located loaded built
  obtain ⟨artifact, rendered, css, passthrough⟩ := ProjectInputs.render_congr items.symm made
    (answering tree places (Generator.bundled refused) entries).themeRevision
  exact ⟨artifact, reply_of_render absolute loaded rendered, css, passthrough⟩

theorem replies_as_built_of_kitPages :
    let paths : ProjectPaths := ⟨⟨"site.css"⟩, none, none⟩
    let entries : List Path := [⟨"/page.html"⟩, ⟨"/kit.html"⟩, ⟨"/more.html"⟩, ⟨"/page.html"⟩]
    ∃ inputs report artifact, ProjectInputs.read kitPages onePlace = .ok inputs ∧
      (∀ path, path ∈ entries ↔ path ∈ inputs.selector.files kitPages) ∧
      (Build.run kitPages paths (Generator.bundled none)).report = .ok report ∧
      (answering kitPages onePlace (Generator.bundled none) entries).reply = .ok artifact ∧
      artifact.css = report.artifact.css ∧ artifact.passthrough = report.artifact.passthrough := by
  intro paths entries
  have proper : kitPages.Proper := by decide +kernel
  have located : paths.locate kitPages = .ok onePlace := by decide +kernel
  have reads : (ProjectInputs.read kitPages onePlace).map (fun inputs =>
        (SourceSelector.distinctPaths ((inputs.selector.walks.flatMap fun walk =>
            Ignore.walk kitPages walk.respectsIgnoreFiles walk.root).filter inputs.selector.selects),
          inputs.selector.selects onePlace.input)) =
      .ok ([⟨"/kit.html"⟩, ⟨"/more.html"⟩, ⟨"/page.html"⟩], false) := by decide +kernel
  have isBuilt : (Build.run kitPages paths (Generator.bundled none)).report.isOk = true := by
    decide +kernel
  obtain ⟨inputs, loaded, known⟩ := map_eq_ok.1 reads
  obtain ⟨distinct, unselected⟩ := Prod.mk.inj known
  obtain ⟨report, built⟩ := exists_of_isOk isBuilt
  have files (path : Path) : path ∈ inputs.selector.files kitPages ↔
      path ∈ ([⟨"/kit.html"⟩, ⟨"/more.html"⟩, ⟨"/page.html"⟩] : List Path) := by
    rw [← distinct]
    exact List.mem_mergeSort
  have short : ∀ path ∈ inputs.selector.files kitPages,
      path.spelling.utf8ByteSize ≤ longestPath := by
    simp only [files]
    decide +kernel
  have all (path : Path) : path ∈ entries ↔ path ∈ inputs.selector.files kitPages := by
    rw [files]
    simp only [entries, List.mem_cons, List.not_mem_nil, or_false]
    grind
  obtain ⟨artifact, reply, same⟩ := replies_as_built kitPages paths onePlace inputs none report
    entries proper located loaded built unselected short all
  exact ⟨inputs, report, artifact, loaded, all, built, reply, same⟩

def farNames : List String := List.replicate 2040 "d" ++ ["page.html"]

def pagesBehind (names : List String) : FileTree :=
  ⟨[("a", .directory []), ("b", .directory [(".ignore", .file "*\n".toUTF8),
      ("d", Node.behind names (.file "flex".toUTF8))]),
    ("site.css", .file "@import \"windsmith\";\n@source \"./a\\..\\b/*\";\n".toUTF8)], []⟩

def farPages : FileTree := pagesBehind farNames

def sitePaths : ProjectPaths := ⟨⟨"site.css"⟩, none, none⟩

def farCatalog : SourceCatalog := (SourceCatalog.ofProject ⟨"/"⟩).declare "./a\\..\\b/*" ⟨"/"⟩

theorem farNames_areNames : ∀ name ∈ farNames, IsName name ∧ '\x00' ∉ name.toList ∧
    name.utf8ByteSize ≤ longestName := by
  refine List.forall_mem_append.2 ⟨fun name member => ?_, ?_⟩
  · rw [List.eq_of_mem_replicate member]
    decide
  · decide

theorem bytesOf_farNames : Node.bytesOf farNames = 4090 := by
  rw [farNames, Node.bytesOf_append, Node.bytesOf_replicate]
  decide

theorem proper_farPages : farPages.Proper := by
  have deep : (Node.behind farNames (.file "flex".toUTF8)).isProper
      (0 + 1 + "b".utf8ByteSize + 1 + "d".utf8ByteSize) = true := by
    refine Node.isProper_behind rfl farNames_areNames ?_
    rw [bytesOf_farNames]
    decide
  simp only [FileTree.Proper, FileTree.root, farPages, pagesBehind, Node.isProper, Node.areProper, deep]
  decide

theorem contentAt?_pagesBehind (names : List String) :
    (pagesBehind names).contentAt? ("b" :: "d" :: names) = some "flex".toUTF8 := by
  have deep := Node.at?_behind names [] (.file "flex".toUTF8)
  rw [List.append_nil] at deep
  exact contentAt?_eq_some.2 deep

theorem far_or_rules {names more : List String}
    (file : ((pagesBehind names).contentAt? ("b" :: more)).isSome) :
    more = [".ignore"] ∨ more = "d" :: names := by
  obtain ⟨content, isContent⟩ := Option.isSome_iff_exists.1 file
  have found : (Node.directory [(".ignore", .file "*\n".toUTF8),
      ("d", Node.behind names (.file "flex".toUTF8))]).at? more = some (.file content) :=
    contentAt?_eq_some.1 isContent
  cases more with
  | nil => cases found
  | cons name rest =>
    obtain ⟨entries, child, same, isChild, inside⟩ := Node.at?_cons_eq_some found
    obtain rfl := Node.directory.inj same
    have listed := Table.mem_of_get? isChild
    rcases List.mem_pair.1 listed with entry | entry
    · obtain ⟨rfl, rfl⟩ := Prod.mk.inj entry
      cases rest with
      | nil => exact .inl rfl
      | cons next others => cases inside
    · obtain ⟨rfl, rfl⟩ := Prod.mk.inj entry
      exact .inr (congrArg _ (Node.eq_of_at?_behind inside))

def farScan : Path := pathOf ("a" :: ".." :: "b" :: "d" :: farNames)

def farPage : Path := pathOf ("b" :: "d" :: farNames)

theorem areNames_far : ∀ name ∈ "b" :: "d" :: farNames, IsName name :=
  List.forall_mem_cons.2 ⟨by decide, List.forall_mem_cons.2 ⟨by decide,
    fun name member => (farNames_areNames name member).1⟩⟩

theorem areSteps_far : ∀ name ∈ "b" :: "d" :: farNames, IsStep name :=
  steps_of_names areNames_far

theorem normalize_farScan : farScan.normalize = farPage :=
  normalize_pathOf_up (by decide) areNames_far

theorem isLeftOut_farPage : isLeftOut farPage = false := by
  have fileName : farPage.fileName? = some "page.html" := by
    have last : farPage = pathOf (("b" :: "d" :: List.replicate 2040 "d") ++ ["page.html"]) := rfl
    rw [last]
    refine fileName?_pathOf (fun text member => ?_) (by decide)
    exact areSteps_far text (List.mem_append_left _ member)
  have known : ∀ name ∈ "b" :: "d" :: farNames, name ∉ skippedDirectories := by
    refine List.forall_mem_cons.2 ⟨by decide, List.forall_mem_cons.2 ⟨by decide, ?_⟩⟩
    refine List.forall_mem_append.2 ⟨fun name member => ?_, by decide⟩
    rw [List.eq_of_mem_replicate member]
    decide
  have free : (farPage.components.any fun component => component.text ∈ skippedDirectories) =
      false := by
    rw [farPage, components_pathOf areSteps_far, List.any_cons, List.any_map, Bool.or_eq_false_iff]
    refine ⟨by decide, List.any_eq_false.2 fun name member => ?_⟩
    simpa using known name member
  rw [isLeftOut, free, fileName, hasExtension, extension?, fileName]
  decide +kernel

theorem selects_farScan (catalog : inputs.catalog = farCatalog)
    (compiled : SourceSelector.ofCatalog farPages inputs.catalog = .ok inputs.selector) :
    inputs.selector.selects farScan = true := by
  have compiles := SourceSelector.compiles_of_ofCatalog compiled
  rw [catalog] at compiles
  have defaults : farCatalog.entriesOf .default = [⟨"**/*", ⟨"/"⟩, .default⟩] := rfl
  have declared : farCatalog.entriesOf .declared = [⟨"./a\\..\\b/*", ⟨"/"⟩, .declared⟩] := rfl
  have excluded : farCatalog.exclusions = [] := rfl
  have normal : farPage.normalize = farPage := normalize_pathOf areNames_far
  have same : farScan.normalize = farPage.normalize := normalize_farScan.trans normal.symm
  rw [SourceSelector.selects_congr same, SourceSelector.selects_iff compiles normal, defaults,
    declared, excluded]
  refine ⟨fun entry member => absurd member List.not_mem_nil, .inr ⟨?_, ?_, isLeftOut_farPage, ?_⟩⟩
  · rintro ⟨entry, member, covers⟩
    rw [List.mem_singleton.1 member] at covers
    have below := SourceSelector.startsWith_of_covers covers
    have start : fixedStart (Entry.mk "./a\\..\\b/*" ⟨"/"⟩ .declared).glob =
        pathOf ["a", "..", "b"] := rfl
    rw [start, farPage, startsWith_pathOf areSteps_far (by decide)] at below
    simp at below
  · have last : farPage = pathOf (("b" :: "d" :: List.replicate 2040 "d") ++ ["page.html"]) := rfl
    rw [last]
    exact ⟨_, List.mem_singleton_self _, SourceSelector.covers_root (by decide)⟩
  · have none : (SourceSelector.ignoreFile? farPages ⟨"/"⟩) = none := by
      rw [← Option.isNone_iff_eq_none]
      rfl
    simp [SourceSelector.isIgnored?, SourceSelector.ignoredBy?, compiles.ignoreFiles,
      SourceCatalog.ignoreFiles, defaults, none]

theorem foldl_child_back {names : List String} (steps : ∀ text ∈ names, IsStep text) :
    names.foldl child ⟨"/a/../b"⟩ = pathOf ("a" :: ".." :: "b" :: names) := by
  have root : (⟨"/a/../b"⟩ : Path) = pathOf ["a", "..", "b"] := rfl
  have start : ∀ text ∈ ["a", "..", "b"], IsStep text := by decide
  rw [root, foldl_child_pathOf start steps]
  rfl

theorem locate_back : farPages.locate ⟨"/a/../b"⟩ = .ok ["b"] := rfl

theorem walks_farPages (catalog : inputs.catalog = farCatalog)
    (compiled : SourceSelector.ofCatalog farPages inputs.catalog = .ok inputs.selector) :
    inputs.selector.walks = [⟨⟨"/"⟩, true⟩, ⟨⟨"/a/../b"⟩, false⟩] := by
  rw [(SourceSelector.compiles_of_ofCatalog compiled).walks, catalog]
  rfl

theorem path_of_far_files (catalog : inputs.catalog = farCatalog)
    (compiled : SourceSelector.ofCatalog farPages inputs.catalog = .ok inputs.selector)
    (unselected : inputs.selector.selects ⟨"/site.css"⟩ = false) {path : Path}
    (member : path ∈ inputs.selector.files farPages) :
    path = ⟨"/a/../b/.ignore"⟩ ∨ path = farScan := by
  obtain ⟨selected, walk, isWalk, found⟩ := SourceSelector.mem_of_mem_collect member
  rw [walks_farPages catalog compiled] at isWalk
  rcases List.mem_pair.1 isWalk with rfl | rfl
  · have only : Ignore.walk farPages true ⟨"/"⟩ = [⟨"/site.css"⟩] := by decide +kernel
    rw [only, List.mem_singleton] at found
    rw [found, unselected] at selected
    cases selected
  · obtain ⟨place, names, located, rfl, file⟩ := (Ignore.mem_full_walk proper_farPages).1 found
    obtain rfl : ["b"] = place := Except.ok.inj (locate_back.symm.trans located)
    have steps := (List.forall_mem_append.1 (proper_farPages.isStep_of_file file)).2
    rcases far_or_rules file with rfl | rfl
    · exact .inl (by decide)
    · exact .inr (foldl_child_back steps)

theorem farScan_mem_files (catalog : inputs.catalog = farCatalog)
    (compiled : SourceSelector.ofCatalog farPages inputs.catalog = .ok inputs.selector)
    (unselected : inputs.selector.selects ⟨"/site.css"⟩ = false) :
    farScan ∈ inputs.selector.files farPages := by
  have walk : (⟨⟨"/a/../b"⟩, false⟩ : SourceWalk) ∈ inputs.selector.walks := by
    rw [walks_farPages catalog compiled]
    decide
  have steps := (List.forall_mem_cons.1 areSteps_far).2
  have found : farScan ∈ Ignore.walk farPages false ⟨"/a/../b"⟩ :=
    (Ignore.mem_full_walk proper_farPages).2 ⟨["b"], "d" :: farNames, locate_back,
      (foldl_child_back steps).symm, Option.isSome_iff_exists.2 ⟨_, contentAt?_pagesBehind farNames⟩⟩
  obtain ⟨kept, inside, same⟩ :=
    SourceSelector.exists_mem_collect (selects_farScan catalog compiled) walk found
  rcases path_of_far_files catalog compiled unselected inside with rfl | rfl
  · have rules : (⟨"/a/../b/.ignore"⟩ : Path) = pathOf ["a", "..", "b", ".ignore"] := rfl
    have all : ∀ name ∈ "a" :: ".." :: "b" :: "d" :: farNames, IsStep name :=
      List.forall_mem_cons.2 ⟨by decide, List.forall_mem_cons.2 ⟨isStep_up, areSteps_far⟩⟩
    rw [rules, farScan, same_pathOf all (by decide)] at same
    simp at same
  · exact inside

theorem scanned_farPages (catalog : inputs.catalog = farCatalog)
    (compiled : SourceSelector.ofCatalog farPages inputs.catalog = .ok inputs.selector)
    (unselected : inputs.selector.selects ⟨"/site.css"⟩ = false) :
    inputs.scanned farPages = CandidatePool.empty := by
  have none : (Candidate.ofFiles farPages (inputs.selector.files farPages)).candidates = [] := by
    refine List.eq_nil_iff_forall_not_mem.2 fun token member => ?_
    obtain ⟨path, isFile, tokens, told, inside⟩ := Candidate.mem_ofFiles_iff.1 member
    rcases path_of_far_files catalog compiled unselected isFile with rfl | rfl
    · have silent : Candidate.ofFile farPages ⟨"/a/../b/.ignore"⟩ = .ok [] := by decide +kernel
      obtain rfl := Except.ok.inj (silent.symm.trans told)
      cases inside
    · obtain ⟨content, read⟩ : ∃ content, farPages.readBytes farScan = .ok content :=
        Candidate.IsIn.exists_read ⟨tokens, told, inside⟩
      have short := utf8ByteSize_le_of_readBytes (isAbsolute_pathOf _) read
      rw [utf8ByteSize_pathOf _ (List.cons_ne_nil _ _)] at short
      simp only [Node.bytesOf, bytesOf_farNames] at short
      exact absurd short (by decide)
  rw [ProjectInputs.scanned, none]
  rfl

theorem flex_mem_candidates (loaded : ProjectInputs.read farPages onePlace = .ok inputs)
    (catalog : inputs.catalog = farCatalog)
    (unselected : inputs.selector.selects ⟨"/site.css"⟩ = false) :
    "flex" ∈ (answering farPages onePlace (Generator.bundled none)
      (inputs.selector.files farPages)).candidates.items := by
  have asked := (asked_opened (Generator.bundled none) loaded).requests (by decide)
    (inputs.selector.files farPages)
  have scanned := farScan_mem_files catalog (ProjectInputs.read_iff.1 loaded).selector unselected
  have input : Config.IsPlace onePlace.input := ⟨["site.css"], by rfl, by decide⟩
  have absolute : farScan.isAbsolute = true := isAbsolute_pathOf _
  have asks := ProjectPlaces.asks_of_selects input unselected absolute
    (SourceSelector.mem_of_mem_collect scanned).1 scanned
  rw [ProjectPlaces.page_of_isAbsolute absolute, normalize_farScan] at asks
  have told : Candidate.IsIn farPages farPage "flex" := by
    refine ⟨["flex"], ?_, List.mem_singleton_self _⟩
    rw [farPage, Candidate.ofFile, readBytes_pathOf proper_farPages (contentAt?_pagesBehind farNames)]
    decide +kernel
  exact (asked.candidates "flex").2 ⟨farPage, .inr asks, told⟩

theorem replies_not_as_built :
    farPages.Proper ∧ sitePaths.locate farPages = .ok onePlace ∧
    ∃ inputs report artifact, ProjectInputs.read farPages onePlace = .ok inputs ∧
      inputs.selector.selects onePlace.input = false ∧
      (Build.run farPages sitePaths (Generator.bundled none)).report = .ok report ∧
      (answering farPages onePlace (Generator.bundled none)
        (inputs.selector.files farPages)).reply = .ok artifact ∧
      artifact.css ≠ report.artifact.css := by
  have located : sitePaths.locate farPages = .ok onePlace := rfl
  have reads : (ProjectInputs.read farPages onePlace).map (fun inputs =>
        (inputs.catalog, inputs.selector.selects ⟨"/site.css"⟩,
          inputs.render (Generator.bundled none) CandidatePool.empty 0)) =
      .ok (farCatalog, false, .ok ⟨"", 0, 0, false⟩) := by decide +kernel
  obtain ⟨inputs, loaded, known⟩ := map_eq_ok.1 reads
  simp only [Prod.mk.injEq] at known
  obtain ⟨catalog, unselected, made⟩ := known
  have compiled := (ProjectInputs.read_iff.1 loaded).selector
  have report := Build.compile_eq (Generator.bundled none) loaded
  rw [scanned_farPages catalog compiled unselected, made] at report
  have seen := flex_mem_candidates loaded catalog unselected
  -- The same root and theme are rendered again, with the candidate of the page.
  rcases ProjectInputs.render_eq_ok.1 made with ⟨isRoot, theme, css, resolved, -, -⟩ | ⟨-, same⟩
  · obtain ⟨artifact, rendered, generated⟩ :
        ∃ artifact, inputs.render (Generator.bundled none)
          (answering farPages onePlace (Generator.bundled none)
            (inputs.selector.files farPages)).candidates
          (answering farPages onePlace (Generator.bundled none)
            (inputs.selector.files farPages)).themeRevision = .ok artifact ∧
          artifact.passthrough = false :=
      ⟨_, ProjectInputs.render_eq_ok.2 (.inl ⟨isRoot, theme, _, resolved, rfl, rfl⟩), rfl⟩
    have covers := ProjectInputs.covers_of_render rendered generated
    refine ⟨proper_farPages, located, inputs, _, artifact, loaded, unselected,
      Build.report_of_compile located rfl report, reply_of_render (by decide) loaded rendered, ?_⟩
    intro empty
    have rule := covers "flex" seen
    rw [empty] at rule
    exact absurd (List.infix_nil.1 rule) (by decide)
  · simp at same

end DevState

end UtilityCss
