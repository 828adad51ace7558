import UtilityCss.Proofs.FileTree.Writing
import UtilityCss.Proofs.Session.BuildAgreement

set_option autoImplicit false

namespace UtilityCss

open UtilityCss.Path FileTree Source

variable {tree : FileTree} {paths : ProjectPaths} {places : ProjectPlaces} {inputs : ProjectInputs}
  {generator : Generator} {path output : Path} {error : BuildError}

def FileTree.isUnreadable (tree : FileTree) (path : Path) : Bool :=
  match tree.readText path with
  | .ok _ => false
  | .error fault => fault ≠ .notFound

theorem Candidate.ofFile_of_readText {text : String} (isText : tree.readText path = .ok text) :
    ofFile tree path = .ok (ofText text) := by
  unfold readText at isText
  unfold ofFile
  cases read : tree.readBytes path with
  | error fault => simp [read] at isText
  | ok content =>
    cases decoded : Utf8.decode content with
    | error fault => simp [read, decoded] at isText
    | ok other =>
      obtain rfl : other = text := by simpa [read, decoded] using isText
      simp [decoded]

theorem Candidate.ofFile_of_missing (missing : tree.readText path = .error .notFound) :
    ofFile tree path = .ok [] := by
  unfold readText at missing
  unfold ofFile
  cases read : tree.readBytes path with
  | error fault =>
    obtain rfl : fault = .notFound := by simpa [read] using missing
    rfl
  | ok content => cases decoded : Utf8.decode content <;> simp [read, decoded] at missing

theorem Candidate.ofFile_of_isUnreadable (unreadable : tree.isUnreadable path = true) :
    ∃ details, ofFile tree path = .error (.extraction path details) := by
  unfold isUnreadable readText at unreadable
  unfold ofFile
  cases read : tree.readBytes path with
  | error fault =>
    have other : fault ≠ .notFound := by simpa [read] using unreadable
    cases fault <;> simp_all
  | ok content =>
    cases decoded : Utf8.decode content with
    | error fault => exact ⟨fault.message, by simp [decoded]⟩
    | ok text => simp [read, decoded] at unreadable

theorem Candidate.isIn_iff {token : String} : IsIn tree path token ↔
    ∃ text, tree.readText path = .ok text ∧ token ∈ ofText text := by
  constructor
  · rintro ⟨tokens, isFile, inside⟩
    cases read : tree.readText path with
    | ok text =>
      obtain rfl := Except.ok.inj ((ofFile_of_readText read).symm.trans isFile)
      exact ⟨text, rfl, inside⟩
    | error fault =>
      by_cases missing : fault = .notFound
      · subst missing
        obtain rfl := Except.ok.inj ((ofFile_of_missing read).symm.trans isFile)
        cases inside
      · have unreadable : tree.isUnreadable path = true := by simp [isUnreadable, read, missing]
        obtain ⟨details, fails⟩ := ofFile_of_isUnreadable unreadable
        cases fails.symm.trans isFile
  · rintro ⟨text, isText, inside⟩
    exact ⟨_, ofFile_of_readText isText, inside⟩

theorem Candidate.exists_ofFile_of_readable (readable : tree.isUnreadable path = false) :
    ∃ tokens, ofFile tree path = .ok tokens := by
  cases read : tree.readText path with
  | ok text => exact ⟨_, ofFile_of_readText read⟩
  | error fault =>
    obtain rfl : fault = .notFound := by simpa [isUnreadable, read] using readable
    exact ⟨_, ofFile_of_missing read⟩

theorem Candidate.failures_ofFiles (tree : FileTree) (files : List Path) :
    (ofFiles tree files).failures.map Diagnostic.pathOf =
      (files.filter tree.isUnreadable).map some ∧
    ∀ failure ∈ (ofFiles tree files).failures,
      ∃ path details, failure = .extraction path details := by
  induction files with
  | nil => simp [ofFiles]
  | cons file rest ih =>
    obtain ⟨later, all⟩ := ih
    cases unreadable : tree.isUnreadable file with
    | true =>
      obtain ⟨details, fails⟩ := ofFile_of_isUnreadable unreadable
      have failures : (ofFiles tree (file :: rest)).failures =
          .extraction file details :: (ofFiles tree rest).failures := by simp [ofFiles, fails]
      rw [failures]
      refine ⟨?_, List.forall_mem_cons.2 ⟨⟨file, details, rfl⟩, all⟩⟩
      rw [List.filter_cons_of_pos unreadable, List.map_cons, List.map_cons, later]
      rfl
    | false =>
      obtain ⟨tokens, isFile⟩ := exists_ofFile_of_readable unreadable
      have failures : (ofFiles tree (file :: rest)).failures = (ofFiles tree rest).failures := by
        simp [ofFiles, isFile]
      rw [failures, List.filter_cons_of_neg (by simp [unreadable])]
      exact ⟨later, all⟩

theorem FileTree.readText_ne_missing (long : longestPath < path.spelling.utf8ByteSize) :
    tree.readText path ≠ .error .notFound := by
  intro missing
  have nonempty : path.spelling ≠ "" := by
    intro empty
    rw [empty] at long
    exact absurd long (by decide)
  unfold readText readBytes FileTree.node locate at missing
  rw [if_neg nonempty, if_pos long] at missing
  split_ifs at missing <;> simp [Except.bind] at missing

theorem SourceSelector.isUnreadable_of_mem_files {catalog : SourceCatalog}
    {selector : SourceSelector} (proper : tree.Proper) (compiles : Compiles tree catalog selector)
    (anchored : catalog.IsAnchored) (member : path ∈ selector.files tree) :
    tree.isUnreadable path = true ∨ ∃ text, tree.readText path = .ok text := by
  cases read : tree.readText path with
  | ok text => exact .inr ⟨text, rfl⟩
  | error fault =>
    refine .inl ?_
    by_contra missing
    obtain rfl : fault = .notFound := by simpa [isUnreadable, read] using missing
    by_cases short : path.spelling.utf8ByteSize ≤ longestPath
    · obtain ⟨content, bytes⟩ := readBytes_of_mem_files proper compiles anchored member short
      cases decoded : Utf8.decode content <;> simp [readText, bytes, decoded] at read
    · exact readText_ne_missing (Nat.not_le.1 short) read

theorem ProjectInputs.render_eq_error {pool : CandidatePool} {revision : Nat} :
    inputs.render generator pool revision = .error error ↔ inputs.stylesheet.isRoot = true ∧
      (inputs.theme = .error error ∨
        ∃ theme, inputs.theme = .ok theme ∧ generator theme pool = .error error) := by
  unfold render themeIfNeeded Artifact.render
  cases inputs.stylesheet.isRoot with
  | false => simp [bind, Except.bind]
  | true =>
    cases inputs.theme with
    | error other => simp [bind, Except.bind]
    | ok theme =>
      cases generated : generator theme pool <;>
        simp [bind, Except.bind, pure, Except.pure, generated]

namespace Build

inductive Phase where
  | options
  | inputs
  | theme
  | generator
  | output
  deriving DecidableEq, Repr

/-- The build comes to a phase, and that fails. Only a stylesheet that imports the engine has a
theme and generated rules. -/
inductive FailsAt (tree : FileTree) (paths : ProjectPaths) (generator : Generator) :
    Phase → BuildError → Prop
  | options {error : BuildError} (fails : paths.locate tree = .error error) :
      FailsAt tree paths generator .options error
  | inputs {places : ProjectPlaces} {error : BuildError} (located : paths.locate tree = .ok places)
      (fails : ProjectInputs.read tree places = .error error) :
      FailsAt tree paths generator .inputs error
  | theme {places : ProjectPlaces} {inputs : ProjectInputs} {error : BuildError}
      (located : paths.locate tree = .ok places)
      (loaded : ProjectInputs.read tree places = .ok inputs)
      (isRoot : inputs.stylesheet.isRoot = true) (fails : inputs.theme = .error error) :
      FailsAt tree paths generator .theme error
  | generator {places : ProjectPlaces} {inputs : ProjectInputs} {theme : Theme} {error : BuildError}
      (located : paths.locate tree = .ok places)
      (loaded : ProjectInputs.read tree places = .ok inputs)
      (isRoot : inputs.stylesheet.isRoot = true) (resolved : inputs.theme = .ok theme)
      (fails : generator theme (inputs.scanned tree) = .error error) :
      FailsAt tree paths generator .generator error
  | output {places : ProjectPlaces} {inputs : ProjectInputs} {artifact : Artifact} {output : Path}
      {fault : FileFault} (located : paths.locate tree = .ok places)
      (loaded : ProjectInputs.read tree places = .ok inputs)
      (made : inputs.render generator (inputs.scanned tree) 0 = .ok artifact)
      (isOutput : places.output = some output)
      (fails : (tree.writeBelow output artifact.css).2 = .error fault) :
      FailsAt tree paths generator .output (.io fault.message)

def reportOf (tree : FileTree) (inputs : ProjectInputs) (artifact : Artifact) : Report where
  artifact := artifact
  diagnostics := (Candidate.ofFiles tree (inputs.selector.files tree)).failures.map
    (Diagnostic.ofFault .build)
  files := (inputs.selector.files tree).length

/-- What a report says of the sources: no scan is refused, and each source that cannot be read has
one warning. -/
structure Reports (tree : FileTree) (inputs : ProjectInputs) (report : Report) : Prop where
  answers : inputs.selector.files? tree = some (inputs.selector.files tree)
  files : report.files = (inputs.selector.files tree).length
  distinct : (inputs.selector.files tree).Nodup
  unreadable : report.diagnostics.map Diagnostic.path =
    ((inputs.selector.files tree).filter tree.isUnreadable).map some
  warnings : ∀ diagnostic ∈ report.diagnostics,
    ∃ path details, diagnostic = .warning (.extraction path details)
  others : tree.Proper → ∀ path ∈ inputs.selector.files tree,
    tree.isUnreadable path = true ∨ ∃ text, tree.readText path = .ok text

def Delivers (tree : FileTree) (outcome : Outcome) (css : String) : Option Path → Prop
  | none => outcome.tree = tree ∧ outcome.printed = css ++ "\n"
  | some output => outcome.printed = "" ∧ outcome.tree.readBytes output = .ok css.toUTF8 ∧
      Written output.location.names css.toUTF8 tree outcome.tree

theorem run_eq (located : paths.locate tree = .ok places)
    (loaded : ProjectInputs.read tree places = .ok inputs) :
    run tree paths generator = match inputs.render generator (inputs.scanned tree) 0 with
      | .error error => ⟨tree, "", .error error⟩
      | .ok artifact => deliver tree places.output (reportOf tree inputs artifact) := by
  simp only [run, located, compile_eq generator loaded]
  cases inputs.render generator (inputs.scanned tree) 0 <;> rfl

theorem run_of_render_error (located : paths.locate tree = .ok places)
    (loaded : ProjectInputs.read tree places = .ok inputs)
    (fails : inputs.render generator (inputs.scanned tree) 0 = .error error) :
    run tree paths generator = ⟨tree, "", .error error⟩ := by
  rw [run_eq located loaded, fails]

theorem run_of_read_error (located : paths.locate tree = .ok places)
    (fails : ProjectInputs.read tree places = .error error) :
    run tree paths generator = ⟨tree, "", .error error⟩ := by
  simp only [run, located, compile, survey, fails, bind, Except.bind]

theorem deliver_eq_error {report : Report} {target : Option Path} :
    (deliver tree target report).report = .error error ↔ ∃ output fault, target = some output ∧
      (tree.writeBelow output report.artifact.css).2 = .error fault ∧ .io fault.message = error := by
  cases target with
  | none => simp [deliver]
  | some output =>
    rcases wrote : tree.writeBelow output report.artifact.css with ⟨after, fault | done⟩ <;>
      simp [deliver, wrote]

theorem run_of_failsAt {phase : Phase} (fails : FailsAt tree paths generator phase error) :
    (run tree paths generator).report = .error error ∧
      (phase ≠ .output → run tree paths generator = ⟨tree, "", .error error⟩) := by
  have whole (early : run tree paths generator = ⟨tree, "", .error error⟩) :
      (run tree paths generator).report = .error error ∧
        (phase ≠ .output → run tree paths generator = ⟨tree, "", .error error⟩) :=
    ⟨by rw [early], fun _ => early⟩
  cases fails with
  | options fails => exact whole (by simp only [run, fails])
  | inputs located fails => exact whole (run_of_read_error located fails)
  | theme located loaded isRoot fails =>
    refine whole (run_of_render_error located loaded ?_)
    exact ProjectInputs.render_eq_error.2 ⟨isRoot, .inl fails⟩
  | generator located loaded isRoot resolved fails =>
    refine whole (run_of_render_error located loaded ?_)
    exact ProjectInputs.render_eq_error.2 ⟨isRoot, .inr ⟨_, resolved, fails⟩⟩
  | output located loaded made isOutput fails =>
    refine ⟨?_, fun other => absurd rfl other⟩
    rw [run_eq located loaded, made]
    exact deliver_eq_error.2 ⟨_, _, isOutput, fails, rfl⟩

theorem run_cases (tree : FileTree) (paths : ProjectPaths) (generator : Generator) :
    (∃ phase error, FailsAt tree paths generator phase error ∧
      run tree paths generator = ⟨tree, "", .error error⟩) ∨
    ∃ places inputs artifact, paths.locate tree = .ok places ∧
      ProjectInputs.read tree places = .ok inputs ∧
      inputs.render generator (inputs.scanned tree) 0 = .ok artifact ∧
      run tree paths generator = deliver tree places.output (reportOf tree inputs artifact) := by
  cases located : paths.locate tree with
  | error error => exact .inl ⟨.options, error, .options located, by simp only [run, located]⟩
  | ok places =>
    cases loaded : ProjectInputs.read tree places with
    | error error =>
      exact .inl ⟨.inputs, error, .inputs located loaded, run_of_read_error located loaded⟩
    | ok inputs =>
      cases made : inputs.render generator (inputs.scanned tree) 0 with
      | error error =>
        have early := run_of_render_error located loaded made
        obtain ⟨isRoot, unresolved | ⟨theme, resolved, refused⟩⟩ :=
          ProjectInputs.render_eq_error.1 made
        · exact .inl ⟨.theme, error, .theme located loaded isRoot unresolved, early⟩
        · exact .inl ⟨.generator, error, .generator located loaded isRoot resolved refused, early⟩
      | ok artifact =>
        refine .inr ⟨places, inputs, artifact, rfl, loaded, made, ?_⟩
        rw [run_eq located loaded, made]

theorem exists_failsAt (fails : (run tree paths generator).report = .error error) :
    ∃ phase, FailsAt tree paths generator phase error := by
  rcases run_cases tree paths generator with ⟨phase, other, failsAt, early⟩ |
    ⟨places, inputs, artifact, located, loaded, made, late⟩
  · rw [early] at fails
    exact ⟨phase, Except.error.inj fails ▸ failsAt⟩
  · rw [late] at fails
    obtain ⟨output, fault, isOutput, refused, rfl⟩ := deliver_eq_error.1 fails
    exact ⟨.output, .output located loaded made isOutput refused⟩

theorem reports_reportOf (located : paths.locate tree = .ok places)
    (loaded : ProjectInputs.read tree places = .ok inputs) (artifact : Artifact) :
    Reports tree inputs (reportOf tree inputs artifact) := by
  obtain ⟨failures, kinds⟩ := Candidate.failures_ofFiles tree (inputs.selector.files tree)
  have compiles := SourceSelector.compiles_of_ofCatalog (ProjectInputs.read_iff.1 loaded).selector
  have anchored := ProjectInputs.isAnchored_catalog located loaded
  refine ⟨(ProjectInputs.answers_of_locate located loaded).1, rfl, ?_, ?_, ?_,
    fun proper path member => SourceSelector.isUnreadable_of_mem_files proper compiles anchored member⟩
  · have increasing := SourceSelector.increasing_collect tree inputs.selector.walks
      inputs.selector.selects
    refine increasing.imp fun {earlier later} less same => ?_
    exact not_same_of_lt less (same ▸ same_refl earlier)
  · rw [reportOf, List.map_map, ← failures]
    rfl
  · intro diagnostic member
    obtain ⟨failure, isFailure, rfl⟩ := List.mem_map.1 member
    obtain ⟨path, details, rfl⟩ := kinds failure isFailure
    exact ⟨path, details, rfl⟩

theorem isNormal_output (located : paths.locate tree = .ok places)
    (isOutput : places.output = some output) : IsNormal output := by
  unfold ProjectPaths.locate at located
  obtain ⟨root, -, located⟩ := bind_eq_ok.1 located
  obtain ⟨input, -, located⟩ := bind_eq_ok.1 located
  obtain rfl := Except.ok.inj located
  obtain ⟨written, -, rfl⟩ := Option.map_eq_some_iff.1 isOutput
  exact isNormal_normalize (Source.isAbsolute_join (isAbsolute_pathOf _))

theorem delivers_of_deliver {report other : Report} {target : Option Path}
    (normal : ∀ output, target = some output → IsNormal output)
    (delivered : (deliver tree target report).report = .ok other) :
    other = report ∧ Delivers tree (deliver tree target report) report.artifact.css target := by
  cases target with
  | none => exact ⟨(Except.ok.inj delivered).symm, rfl, rfl⟩
  | some output =>
    obtain ⟨place, texts, areNames, spells, rfl⟩ := normal output rfl
    rcases wrote : tree.writeBelow (pathOf texts) report.artifact.css with ⟨after, fault | done⟩
    · simp [deliver, wrote] at delivered
    · obtain ⟨written, read⟩ := written_of_writeBelow areNames spells wrote
      rw [← location_pathOf areNames spells] at written
      simp only [deliver, wrote] at delivered ⊢
      exact ⟨(Except.ok.inj delivered).symm, rfl, read, written⟩

theorem openedTo_of_failsAt_output (fails : FailsAt tree paths generator .output error) :
    ∃ places output, paths.locate tree = .ok places ∧ places.output = some output ∧
      OpenedTo output.location.names.dropLast tree (run tree paths generator).tree := by
  cases fails with
  | @output places inputs artifact output fault located loaded made isOutput fails =>
    refine ⟨places, output, located, isOutput, ?_⟩
    obtain ⟨place, texts, areNames, spells, rfl⟩ := isNormal_output located isOutput
    rw [run_eq located loaded, made, location_pathOf areNames spells]
    rcases wrote : tree.writeBelow (pathOf texts) artifact.css with ⟨after, fault | done⟩
    · have opened := openedTo_of_failed_writeBelow areNames spells wrote
      simpa [deliver, isOutput, reportOf, wrote] using opened
    · simp [wrote] at fails

/-- A build fails when one of its phases does, and leaves the files alone unless that is the last
one, which makes at most directories above the output. Sources that cannot be read fail none of
them: the candidates are those of the other ones. A build that does not fail reports each of these
sources, delivers the stylesheet, and changes nothing else. -/
theorem run_outcome (tree : FileTree) (paths : ProjectPaths) (generator : Generator) :
    (∀ error, (run tree paths generator).report = .error error ↔
      ∃ phase, FailsAt tree paths generator phase error) ∧
    (∀ phase error, FailsAt tree paths generator phase error → phase ≠ .output →
      run tree paths generator = ⟨tree, "", .error error⟩) ∧
    (∀ error, FailsAt tree paths generator .output error →
      ∃ places output, paths.locate tree = .ok places ∧ places.output = some output ∧
        OpenedTo output.location.names.dropLast tree (run tree paths generator).tree) ∧
    (∀ (inputs : ProjectInputs) (token : String), token ∈ (inputs.scanned tree).items ↔
      ∃ path ∈ inputs.selector.files tree, ∃ text, tree.readText path = .ok text ∧
        token ∈ Candidate.ofText text) ∧
    ∀ report, (run tree paths generator).report = .ok report →
      ∃ places inputs, paths.locate tree = .ok places ∧
        ProjectInputs.read tree places = .ok inputs ∧
        inputs.render generator (inputs.scanned tree) 0 = .ok report.artifact ∧
        Reports tree inputs report ∧
        Delivers tree (run tree paths generator) report.artifact.css places.output := by
  refine ⟨fun error => ⟨exists_failsAt, fun ⟨phase, fails⟩ => (run_of_failsAt fails).1⟩,
    fun phase error fails => (run_of_failsAt fails).2, fun error => openedTo_of_failsAt_output,
    fun inputs token => ?_, fun report built => ?_⟩
  · simp only [ProjectInputs.mem_scanned_iff, Candidate.isIn_iff]
  · rcases run_cases tree paths generator with ⟨phase, error, -, early⟩ |
      ⟨places, inputs, artifact, located, loaded, made, late⟩
    · rw [early] at built
      cases built
    · rw [late] at built ⊢
      obtain ⟨rfl, delivers⟩ := delivers_of_deliver (fun _ => isNormal_output located) built
      exact ⟨places, inputs, located, loaded, made, reports_reportOf located loaded artifact, delivers⟩

-- A page that is no text, and another one.
def brokenSource : FileTree :=
  ⟨[("broken.html", .file ⟨#[0xff]⟩), ("page.html", .file "flex".toUTF8),
    ("site.css", .file "@import \"windsmith\";\n".toUTF8)], []⟩

theorem run_outcome_of_brokenSource :
    let outcome := run brokenSource ⟨⟨"site.css"⟩, some ⟨"out/site.css"⟩, none⟩ Generator.manifest
    (∃ report, outcome.report = .ok report ∧
      report.diagnostics.map Diagnostic.path = [some ⟨"/broken.html"⟩] ∧
      outcome.tree.readBytes ⟨"/out/site.css"⟩ = .ok report.artifact.css.toUTF8 ∧
      outcome.tree.thingAt? ["out"] = some .directory ∧
      outcome.tree.thingAt? ["page.html"] = brokenSource.thingAt? ["page.html"]) ∧
    ∃ error, run brokenSource ⟨⟨"gone.css"⟩, some ⟨"out/site.css"⟩, none⟩ Generator.manifest =
      ⟨brokenSource, "", .error error⟩ := by
  intro outcome
  let places : ProjectPlaces := ⟨⟨"/site.css"⟩, some ⟨"/out/site.css"⟩, ⟨"/"⟩⟩
  have location : Path.location ⟨"/out/site.css"⟩ = ⟨true, 0, ["out", "site.css"]⟩ := by
    decide +kernel
  have isBuilt : outcome.report.isOk = true := by decide +kernel
  have isPlaced : ProjectPaths.locate ⟨⟨"site.css"⟩, some ⟨"out/site.css"⟩, none⟩ brokenSource =
      .ok places := by decide +kernel
  have reads : (ProjectInputs.read brokenSource places).map (fun inputs =>
        (SourceSelector.distinctPaths ((inputs.selector.walks.flatMap fun walk =>
          Ignore.walk brokenSource walk.respectsIgnoreFiles walk.root).filter
            inputs.selector.selects)).filter brokenSource.isUnreadable) =
      .ok [⟨"/broken.html"⟩] := by decide +kernel
  constructor
  · obtain ⟨report, built⟩ := exists_of_isOk isBuilt
    obtain ⟨found, inputs, located, loaded, -, reports, delivers⟩ :=
      (run_outcome brokenSource _ Generator.manifest).2.2.2.2 report built
    obtain rfl := Except.ok.inj (isPlaced.symm.trans located)
    obtain ⟨again, loadedToo, distinct⟩ := map_eq_ok.1 reads
    obtain rfl := Except.ok.inj (loaded.symm.trans loadedToo)
    have unreadable : (inputs.selector.files brokenSource).filter brokenSource.isUnreadable =
        [⟨"/broken.html"⟩] := by
      apply List.perm_singleton.1
      rw [← distinct]
      exact (List.mergeSort_perm _ _).filter _
    obtain ⟨-, read, written⟩ := delivers
    rw [location] at written
    refine ⟨report, built, ?_, read, ?_, ?_⟩
    · rw [reports.unreadable, unreadable]
      rfl
    · exact (written.above ["out"] (by decide) (by decide)).1
    · exact written.aside ["page.html"] (by decide)
  · have gone : ProjectPaths.locate ⟨⟨"gone.css"⟩, some ⟨"out/site.css"⟩, none⟩ brokenSource =
        .error (.io "/gone.css: No such file or directory (os error 2)") := by decide +kernel
    exact ⟨_, (run_outcome brokenSource _ Generator.manifest).2.1 .options _ (.options gone)
      (by decide)⟩

end Build

end UtilityCss
