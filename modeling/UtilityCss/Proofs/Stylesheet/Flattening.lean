import UtilityCss.Proofs.Result
import UtilityCss.Proofs.Stylesheet.ImportTree

set_option autoImplicit false

namespace UtilityCss.Stylesheet

open UtilityCss.Path UtilityCss.FileTree

section Bodies

variable {first second more others : List String}

theorem intercalate_ne_empty (spoken : ∀ body ∈ first, body ≠ "") (nonempty : first ≠ []) :
    "\n".intercalate first ≠ "" := by
  obtain ⟨body, rest, rfl⟩ := List.exists_cons_of_ne_nil nonempty
  have isBody := spoken body List.mem_cons_self
  cases rest with
  | nil => simpa using isBody
  | cons next later =>
    rw [String.intercalate_cons_cons]
    exact fun empty => by simpa using congrArg String.toList empty

structure SameText (first second : List String) : Prop where
  text : "\n".intercalate first = "\n".intercalate second
  spoken : ∀ body ∈ first, body ≠ ""
  others : ∀ body ∈ second, body ≠ ""

theorem SameText.refl (spoken : ∀ body ∈ first, body ≠ "") : SameText first first :=
  ⟨rfl, spoken, spoken⟩

theorem SameText.eq_nil_iff (same : SameText first second) : first = [] ↔ second = [] := by
  constructor
  · rintro rfl
    by_contra nonempty
    exact intercalate_ne_empty same.others nonempty same.text.symm
  · rintro rfl
    by_contra nonempty
    exact intercalate_ne_empty same.spoken nonempty same.text

theorem SameText.append (same : SameText first second) (further : SameText more others) :
    SameText (first ++ more) (second ++ others) where
  text := by
    -- A line break stands between the two only if there are bodies on both sides.
    by_cases empty : first = []
    · rw [empty, same.eq_nil_iff.1 empty]
      exact further.text
    · by_cases last : more = []
      · rw [last, further.eq_nil_iff.1 last, List.append_nil, List.append_nil]
        exact same.text
      · rw [String.intercalate_append_of_ne_nil empty last, same.text, further.text,
          String.intercalate_append_of_ne_nil (mt same.eq_nil_iff.2 empty) (mt further.eq_nil_iff.2 last)]
  spoken := List.forall_mem_append.2 ⟨same.spoken, further.spoken⟩
  others := List.forall_mem_append.2 ⟨same.others, further.others⟩

theorem spoken_bodiesOf (text : String) : ∀ body ∈ Content.bodiesOf text, body ≠ "" := by
  unfold Content.bodiesOf
  split_ifs with empty
  · simp
  · simpa using empty

theorem SameText.together (same : SameText first second) :
    SameText (Content.bodiesOf ("\n".intercalate first)) second where
  text := by
    by_cases empty : first = []
    · rw [same.eq_nil_iff.1 empty, empty]
      rfl
    · rw [Content.bodiesOf, if_neg (by simpa using intercalate_ne_empty same.spoken empty), ← same.text]
      simp
  spoken := spoken_bodiesOf _
  others := same.others

end Bodies

namespace Visit

def listed (visit : Visit) : SheetImport := { visit.entry with inlined := !visit.stays }

end Visit

def filesRead (visits : List Visit) (own : Stylesheet) : List Stylesheet :=
  visits.filterMap Visit.sheet? ++ [own]

namespace Content

theorem append_assoc (first second third : Content) :
    (first.append second).append third = first.append (second.append third) := by
  simp [append]

theorem empty_append (content : Content) : empty.append content = content := by
  simp [append, empty]

theorem append_empty (content : Content) : content.append empty = content := by
  simp [append, empty]

theorem foldl_append (contents : List Content) (start : Content) :
    contents.foldl append start = start.append (contents.foldl append empty) := by
  induction contents generalizing start with
  | nil => exact (append_empty start).symm
  | cons content rest ih =>
    rw [List.foldl_cons, List.foldl_cons, ih, ih (empty.append content), empty_append, append_assoc]

end Content

structure Tells (content : Content) (visits : List Visit) : Prop where
  declarations :
    content.declarations = (visits.filterMap Visit.sheet?).flatMap Stylesheet.declarations
  sources : content.sources = (visits.filterMap Visit.sheet?).flatMap Stylesheet.sources
  configs : content.configs = (visits.filterMap Visit.sheet?).flatMap Stylesheet.configs
  imports : content.imports = visits.map Visit.listed
  bodies : SameText content.bodies
    ((visits.filterMap Visit.sheet?).flatMap fun sheet => Content.bodiesOf sheet.body)

variable {tree : FileTree} {chain : List Path} {entries : List SheetImport} {entry : SheetImport}
  {visits further : List Visit} {visit : Visit} {path : Path} {css : String} {depth : Nat}
  {content next : Content} {own sheet : Stylesheet}

theorem tells_empty : Tells Content.empty [] :=
  ⟨rfl, rfl, rfl, rfl, .refl (by simp [Content.empty])⟩

theorem Tells.append (tells : Tells content visits) (later : Tells next further) :
    Tells (content.append next) (visits ++ further) where
  declarations := by simp [Content.append, tells.declarations, later.declarations]
  sources := by simp [Content.append, tells.sources, later.sources]
  configs := by simp [Content.append, tells.configs, later.configs]
  imports := by simp [Content.append, tells.imports, later.imports]
  bodies := by
    rw [List.filterMap_append, List.flatMap_append]
    exact tells.bodies.append later.bodies

theorem tells_ofImport (unread : visit.sheet? = none) :
    Tells (Content.ofImport visit.listed) [visit] := by
  refine ⟨?_, ?_, ?_, rfl, ?_⟩ <;>
    simp only [Content.ofImport, Content.empty, List.filterMap_cons_none unread, List.filterMap_nil,
      List.flatMap_nil]
  exact .refl (by simp)

theorem tells_ofSheet (tells : Tells content visits) :
    Tells (let content := content.append (Content.ofSheet sheet)
      { content with
        imports := content.imports ++ [{ entry with inlined := true }]
        bodies := Content.bodiesOf content.body })
      (visits ++ [⟨entry, .read sheet⟩]) where
  declarations := by simp [Content.append, Content.ofSheet, Visit.sheet?, tells.declarations]
  sources := by simp [Content.append, Content.ofSheet, Visit.sheet?, tells.sources]
  configs := by simp [Content.append, Content.ofSheet, Visit.sheet?, tells.configs]
  imports := by
    simp [Content.append, Content.ofSheet, Visit.listed, Visit.stays, tells.imports]
  bodies := by
    rw [List.filterMap_append, List.flatMap_append]
    have alone : SameText (Content.bodiesOf sheet.body)
        ([sheet].flatMap fun sheet => Content.bodiesOf sheet.body) := by
      rw [List.flatMap_singleton]
      exact .refl (spoken_bodiesOf _)
    exact (tells.bodies.append alone).together

theorem contribution_of_fresh (target : entry.path = some path)
    (fresh : chain.any path.same = false) (text : tree.readText path = .ok css) :
    contribution tree (depth + 1) chain entry =
      let content := (((parse path css).imports.map
        (contribution tree depth (chain ++ [path]))).foldl Content.append Content.empty).append
          (Content.ofSheet (parse path css))
      { content with
        imports := content.imports ++ [{ entry with inlined := true }]
        bodies := Content.bodiesOf content.body } := by
  rw [contribution, target]
  simp [fresh, text]

theorem listed_of_stays (written : IsWritten entry) {outcome : Outcome}
    (stays : (Visit.mk entry outcome).stays = true) : (Visit.mk entry outcome).listed = entry := by
  rw [Visit.listed, stays]
  exact congrArg (SheetImport.mk entry.statement entry.path) written.fresh.symm

def contributed (tree : FileTree) (depth : Nat) (chain : List Path) (entries : List SheetImport) :
    Content :=
  (entries.map (contribution tree depth chain)).foldl Content.append Content.empty

section Cons

variable {rest : List SheetImport} {now later : List Visit}

theorem tells_cons (first : Tells (contribution tree depth chain entry) now)
    (others : Tells (contributed tree depth chain rest) later) :
    Tells (contributed tree depth chain (entry :: rest)) (now ++ later) := by
  rw [contributed, List.map_cons, List.foldl_cons, Content.foldl_append, Content.empty_append]
  exact first.append others

theorem tells_cons_unread (one : contribution tree depth chain entry = .ofImport visit.listed)
    (unread : visit.sheet? = none) (others : Tells (contributed tree depth chain rest) later) :
    Tells (contributed tree depth chain (entry :: rest)) (visit :: later) :=
  tells_cons (one ▸ tells_ofImport unread) others

end Cons

theorem tells_of_follows (follows : Follows tree chain entries visits)
    (isChain : IsChain tree chain) (written : ∀ entry ∈ entries, IsWritten entry)
    (deep : 2 * tree.fileCount < chain.length + depth) :
    Tells (contributed tree depth chain entries) visits := by
  induction follows generalizing depth with
  | nil => exact tells_empty
  | remote bare later ih =>
    obtain ⟨first, others⟩ := List.forall_mem_cons.1 written
    refine tells_cons_unread ?_ rfl (ih isChain others deep)
    rw [contribution, bare, listed_of_stays first rfl]
  | circular target closes later ih =>
    obtain ⟨first, others⟩ := List.forall_mem_cons.1 written
    refine tells_cons_unread ?_ rfl (ih isChain others deep)
    rw [contribution, target]
    simp [closes, Visit.listed, Visit.stays, target]
  | unreadable target fresh fails later ih =>
    obtain ⟨first, others⟩ := List.forall_mem_cons.1 written
    refine tells_cons_unread ?_ rfl (ih isChain others deep)
    rw [contribution, target, listed_of_stays first rfl]
    simp [fresh, fails]
  | read target fresh text within later inner ih =>
    obtain ⟨first, others⟩ := List.forall_mem_cons.1 written
    have normal := first.normal _ target
    -- The file lengthens the way, by no more than the depth that is left.
    have longer := isChain.concat normal fresh text
    have bound := longer.length_le
    rw [List.length_append, List.length_singleton] at bound
    obtain ⟨depth, rfl⟩ : ∃ less, depth = less + 1 := ⟨depth - 1, by omega⟩
    rw [List.append_cons]
    refine tells_cons ?_ (ih isChain others deep)
    rw [contribution_of_fresh target fresh text]
    refine tells_ofSheet (inner longer (isWritten_of_readText normal.isAbsolute text) ?_)
    rw [List.length_append, List.length_singleton]
    omega

/-- The stylesheet with the content of all files that are read for it, in the order in which they
are finished. -/
structure IsFlattened (own : Stylesheet) (visits : List Visit) (sheet : Stylesheet) : Prop where
  path : sheet.path = own.path
  isRoot : sheet.isRoot = own.isRoot
  raw : sheet.raw = own.raw
  declarations : sheet.declarations = (filesRead visits own).flatMap Stylesheet.declarations
  sources : sheet.sources = (filesRead visits own).flatMap Stylesheet.sources
  configs : sheet.configs = (filesRead visits own).flatMap Stylesheet.configs
  body : sheet.body = "\n".intercalate (((filesRead visits own).map Stylesheet.body).filter (· ≠ ""))
  theme : sheet.theme = ((filesRead visits own).flatMap Stylesheet.declarations).foldl
    (fun tokens (name, value) => tokens.add name value) Theme.Tokens.empty
  imports : sheet.imports = visits.map Visit.listed
  keptImports : sheet.keptImports = (visits.filter Visit.stays).map (·.entry.statement)
  importedFiles : sheet.importedFiles = visits.filterMap (·.entry.path)

theorem flatMap_bodiesOf (sheets : List Stylesheet) :
    (sheets.flatMap fun sheet => Content.bodiesOf sheet.body) =
      (sheets.map Stylesheet.body).filter (· ≠ "") := by
  induction sheets with
  | nil => rfl
  | cons sheet rest ih =>
    rw [List.flatMap_cons, ih, List.map_cons, Content.bodiesOf]
    by_cases empty : sheet.body = "" <;> simp [empty]

theorem isFlattened_of_tells (tells : Tells content visits) :
    IsFlattened own visits (own.withContent (content.append (Content.ofSheet own))) where
  path := rfl
  isRoot := rfl
  raw := rfl
  declarations := by
    simp [withContent, Content.append, Content.ofSheet, tells.declarations, filesRead]
  sources := by simp [withContent, Content.append, Content.ofSheet, tells.sources, filesRead]
  configs := by simp [withContent, Content.append, Content.ofSheet, tells.configs, filesRead]
  body := by
    rw [← flatMap_bodiesOf, filesRead, List.flatMap_append, List.flatMap_singleton]
    exact (tells.bodies.append (.refl (spoken_bodiesOf own.body))).text
  theme := by
    simp [Stylesheet.theme, Theme.Tokens.ofList, withContent, Content.append, Content.ofSheet,
      tells.declarations, filesRead]
  imports := by simp [withContent, Content.append, Content.ofSheet, tells.imports]
  keptImports := by
    simp [keptImports, withContent, Content.append, Content.ofSheet, tells.imports, List.filter_map,
      Function.comp_def, Visit.listed]
  importedFiles := by
    simp [importedFiles, withContent, Content.append, Content.ofSheet, tells.imports,
      Function.comp_def, Visit.listed]

theorem IsFlattened.unique {other : Stylesheet} (flattened : IsFlattened own visits sheet)
    (again : IsFlattened own visits other) : sheet = other := by
  cases sheet
  cases other
  simp only [Stylesheet.mk.injEq]
  exact ⟨flattened.path.trans again.path.symm, flattened.isRoot.trans again.isRoot.symm,
    flattened.declarations.trans again.declarations.symm,
    flattened.sources.trans again.sources.symm, flattened.configs.trans again.configs.symm,
    flattened.imports.trans again.imports.symm, flattened.body.trans again.body.symm,
    flattened.raw.trans again.raw.symm⟩

theorem IsFlattened.congr {others : List Visit} (flattened : IsFlattened own visits sheet)
    (same : others.map Visit.told = visits.map Visit.told) : IsFlattened own others sheet := by
  have sheets : others.filterMap Visit.sheet? = visits.filterMap Visit.sheet? := by
    have equal := congrArg (List.filterMap fun told => told.2.2) same
    rwa [List.filterMap_map, List.filterMap_map] at equal
  have paths : others.filterMap (·.entry.path) = visits.filterMap (·.entry.path) := by
    have equal := congrArg (List.filterMap fun told => told.1.path) same
    rwa [List.filterMap_map, List.filterMap_map] at equal
  have listed : others.map Visit.listed = visits.map Visit.listed := by
    have equal := congrArg (List.map fun told => { told.1 with inlined := !told.2.1 }) same
    rwa [List.map_map, List.map_map] at equal
  have kept : (others.filter Visit.stays).map (·.entry.statement) =
      (visits.filter Visit.stays).map (·.entry.statement) := by
    have equal := congrArg
      (fun visits => (visits.filter fun told => told.2.1).map fun told => told.1.statement) same
    rwa [List.filter_map, List.filter_map, List.map_map, List.map_map] at equal
  have files : filesRead others own = filesRead visits own := by rw [filesRead, sheets, filesRead]
  exact
    { path := flattened.path
      isRoot := flattened.isRoot
      raw := flattened.raw
      declarations := files ▸ flattened.declarations
      sources := files ▸ flattened.sources
      configs := files ▸ flattened.configs
      body := files ▸ flattened.body
      theme := files ▸ flattened.theme
      imports := listed ▸ flattened.imports
      keptImports := kept ▸ flattened.keptImports
      importedFiles := paths ▸ flattened.importedFiles }

theorem isFlattened_flatten (absolute : path.isAbsolute = true) (text : tree.readText path = .ok css)
    (follows : Follows tree [path.normalize] (parse path css).imports visits) :
    IsFlattened (parse path css) visits (flatten tree (parse path css)) :=
  isFlattened_of_tells (tells_of_follows follows (isChain_start absolute text)
    (isWritten_of_readText absolute text) (by simp only [importDepth, List.length_singleton]; omega))

/-- What a directive says is seen from the directory of the file that it stands in. -/
structure KeepsBase (sheet : Stylesheet) : Prop where
  sources : ∀ source ∈ sheet.sources, source.base = sheet.base
  configs : ∀ config ∈ sheet.configs, ∃ file, config = sheet.base.join file

theorem keepsBase_parse (path : Path) (css : String) : KeepsBase (parse path css) where
  sources source member := by
    obtain ⟨directive, -, made⟩ := List.mem_filterMap.1 member
    cases directive with
    | source pattern negated => exact Option.some.inj made ▸ rfl
    | engineImport | importFile | config => cases made
  configs config member := by
    obtain ⟨directive, -, made⟩ := List.mem_filterMap.1 member
    cases directive with
    | config file => exact ⟨⟨file⟩, (Option.some.inj made).symm⟩
    | engineImport | importFile | source => cases made

theorem keepsBase_of_follows (follows : Follows tree chain entries visits) :
    ∀ sheet ∈ filesRead visits (parse path css), KeepsBase sheet := by
  refine List.forall_mem_append.2 ⟨fun sheet member => ?_,
    List.forall_mem_singleton.2 (keepsBase_parse path css)⟩
  obtain ⟨visit, visited, isRead⟩ := List.mem_filterMap.1 member
  obtain ⟨place, text, -, -, rfl⟩ := follows.exists_text visited isRead
  exact keepsBase_parse place text

/-- Reading a stylesheet at an absolute path ends, and fails only if its own file cannot be read.
Else there is one tree of imports below it, and the stylesheet is that tree flattened. -/
theorem read_flattens (tree : FileTree) (path : Path) (absolute : path.isAbsolute = true) :
    (∀ fault, tree.readText path = .error fault → read tree path = .error (.io fault.message)) ∧
      ∀ css, tree.readText path = .ok css → ∃ sheet visits,
        read tree path = .ok sheet ∧
        Follows tree [path.normalize] (parse path css).imports visits ∧
        (∀ others, Follows tree [path.normalize] (parse path css).imports others →
          others = visits) ∧
        IsFlattened (parse path css) visits sheet ∧
        ∀ file ∈ filesRead visits (parse path css), KeepsBase file := by
  refine ⟨fun fault fails => by rw [read, fails], fun css text => ?_⟩
  obtain ⟨visits, follows⟩ :=
    exists_follows (isChain_start absolute text) (isWritten_of_readText absolute text)
  exact ⟨_, visits, by rw [read, text], follows, fun others other => other.unique follows,
    isFlattened_flatten absolute text follows, keepsBase_of_follows follows⟩

def circleOfSheets : FileTree :=
  ⟨[("a.css", .file "@import \"./app.css\";\n.a \x7b color: red; \x7d\n".toUTF8),
    ("app.css", .file ("@import \"windsmith\";\n@import url(\"https://fonts.example/x.css\");\n" ++
      "@import \"./a.css\";\n@import \"./later.css\";\n.app \x7b margin: 0; \x7d\n").toUTF8)], []⟩

theorem read_flattens_circle :
    (Path.mk "/app.css").isAbsolute = true ∧ ∃ css sheet visits,
      circleOfSheets.readText ⟨"/app.css"⟩ = .ok css ∧
      read circleOfSheets ⟨"/app.css"⟩ = .ok sheet ∧
      Follows circleOfSheets [(Path.mk "/app.css").normalize] (parse ⟨"/app.css"⟩ css).imports
        visits ∧
      IsFlattened (parse ⟨"/app.css"⟩ css) visits sheet ∧
      sheet.body = ".a \x7b color: red; \x7d\n.app \x7b margin: 0; \x7d" ∧
      sheet.keptImports =
        ["@import url(\"https://fonts.example/x.css\");", "@import \"./later.css\";"] ∧
      sheet.importedFiles = [⟨"/app.css"⟩, ⟨"/a.css"⟩, ⟨"/later.css"⟩] := by
  have absolute : (Path.mk "/app.css").isAbsolute = true := by decide
  have isText : (circleOfSheets.readText ⟨"/app.css"⟩).isOk = true := by decide +kernel
  have told : (read circleOfSheets ⟨"/app.css"⟩).map
      (fun sheet => (sheet.body, sheet.keptImports, sheet.importedFiles)) =
      .ok (".a \x7b color: red; \x7d\n.app \x7b margin: 0; \x7d",
        ["@import url(\"https://fonts.example/x.css\");", "@import \"./later.css\";"],
        [⟨"/app.css"⟩, ⟨"/a.css"⟩, ⟨"/later.css"⟩]) := by
    decide +kernel
  obtain ⟨css, text⟩ := exists_of_isOk isText
  obtain ⟨sheet, visits, isRead, follows, -, flattened, -⟩ :=
    (read_flattens circleOfSheets ⟨"/app.css"⟩ absolute).2 css text
  simp only [isRead, Except.map, Except.ok.injEq, Prod.mk.injEq] at told
  exact ⟨absolute, css, sheet, visits, text, isRead, follows, flattened, told⟩

end UtilityCss.Stylesheet
