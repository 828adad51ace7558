import UtilityCss.Proofs.Session.Freshness

set_option autoImplicit false

namespace UtilityCss

theorem ProjectInputs.input_mem_themeFiles {tree : FileTree} {places : ProjectPlaces}
    {inputs : ProjectInputs} (loaded : ProjectInputs.read tree places = .ok inputs) :
    places.input ∈ inputs.themeFiles := by
  unfold read at loaded
  simp only [bind, Except.bind] at loaded
  split at loaded
  · contradiction
  split at loaded
  · contradiction
  split at loaded
  · contradiction
  simp only [pure, Except.pure, Except.ok.injEq] at loaded
  simp [← loaded, themeFilesOf]

namespace DevState

open LiveSession

variable {state : DevState} {places : ProjectPlaces} {generator : Generator}
  {loads : List (Except BuildError ProjectInputs)}

/-- The files that a session takes for its theme: those of the last successful load and, before
there is one, the input. -/
def knownFiles (places : ProjectPlaces) (loads : List (Except BuildError ProjectInputs)) :
    List Path :=
  ((successes loads).getLast?.map ProjectInputs.themeFiles).getD [places.input]

theorem Loaded.definesTheme_eq {session : LiveSession}
    (loaded : Loaded session places generator loads) (path : Path) :
    session.definesTheme path = (knownFiles places loads).any path.same := by
  unfold definesTheme knownFiles
  rw [loaded.inputs]
  cases (successes loads).getLast? with
  | none => simp [loaded.places]
  | some inputs => rfl

def Reads (places : ProjectPlaces) (loads : List (Except BuildError ProjectInputs)) : Prop :=
  ∀ load ∈ loads, ∃ tree, load = ProjectInputs.read tree places

theorem Loaded.reads_perform (settled : state.session.Settled)
    (loaded : Loaded state.session places generator loads) (steps : List DevStep) :
    Reads places (state.loads steps) := by
  induction steps generalizing state loads with
  | nil => simp [Reads, DevState.loads]
  | cons step steps ih =>
    intro load member
    rcases List.mem_append.1 member with now | later
    · obtain ⟨change, -, attempt⟩ :=
        Option.bind_eq_some_iff.1 (Option.mem_toList.1 now : state.load? step = some load)
      cases change with
      | source path => simp [Change.load?] at attempt
      | theme path =>
        refine ⟨state.tree, ?_⟩
        rw [← loaded.places]
        exact (Option.some.inj attempt).symm
    · exact ih (settled_perform settled step) (loaded_perform settled loaded step) load later

theorem input_known (reads : Reads places loads) :
    (knownFiles places loads).any places.input.same = true := by
  unfold knownFiles
  cases last : (successes loads).getLast? with
  | none => simp [Path.same_refl]
  | some inputs =>
    obtain ⟨load, member, success⟩ := List.mem_filterMap.1 (List.mem_of_getLast? last)
    obtain ⟨tree, rfl⟩ := reads load member
    cases read : ProjectInputs.read tree places with
    | error error => simp [read, Except.toOption] at success
    | ok found =>
      obtain rfl : found = inputs := by simpa [read, Except.toOption] using success
      exact List.any_eq_true.2
        ⟨places.input, ProjectInputs.input_mem_themeFiles read, Path.same_refl _⟩

theorem Loaded.load?_notify (loaded : Loaded state.session places generator loads) (path : Path) :
    state.load? (.notify path) =
      if (knownFiles places loads).any path.normalize.same ∧
          places.output.any path.normalize.same = false ∧
          state.tree.isDirectory path.normalize = false then
        some (ProjectInputs.read state.tree places)
      else none := by
  simp only [load?, change?, meaningOf, loaded.places, loaded.definesTheme_eq path.normalize]
  cases output : places.output.any path.normalize.same with
  | true => simp
  | false =>
    cases directory : state.tree.isDirectory path.normalize with
    | true => simp
    | false =>
      cases known : (knownFiles places loads).any path.normalize.same with
      | true => simp [Change.load?]
      | false =>
        simp only [Bool.or_self, Bool.false_eq_true, if_false, false_and]
        split <;> simp [Change.load?]

-- What a notification does once the inputs can be loaded: it installs them, and the artifact is
-- their rendering if there is one.
theorem reply_of_load (settled : state.session.Settled)
    (loaded : Loaded state.session places generator loads) {step : DevStep}
    {inputs : ProjectInputs} (success : state.load? step = some (.ok inputs)) {artifact : Artifact}
    (made : inputs.render generator (state.perform step).session.candidates
      (state.perform step).session.themeRevision = .ok artifact) :
    (state.perform step).session.inputs = some inputs ∧
      (state.perform step).session.reply = .ok artifact := by
  have next := loaded_perform settled loaded step
  have installed : (state.perform step).session.inputs = some inputs := by
    rw [next.inputs, success, successes_append]
    simp
  refine ⟨installed, reply_eq_ok.2 ?_⟩
  have rendering : (state.perform step).session.rendering = some (.ok artifact) := by
    simp [LiveSession.rendering, installed, next.generator, made]
  rw [artifact_perform settled step, rendering]

/-- A notification loads the inputs again exactly if the file is known from the last successful
load, or is the input, and is neither the output nor a directory. -/
theorem load_attempted_iff_known (tree : FileTree) (places : ProjectPlaces)
    (generator : Generator) (steps : List DevStep) (path : Path) :
    let start := opened tree places generator
    let loads := ProjectInputs.read tree places :: start.loads steps
    let state := start.run steps
    let after := (state.perform (.notify path)).session
    (state.load? (.notify path) =
      if (knownFiles places loads).any path.normalize.same ∧
          places.output.any path.normalize.same = false ∧
          state.tree.isDirectory path.normalize = false then
        some (ProjectInputs.read state.tree places)
      else none) ∧
    (knownFiles places loads).any places.input.same ∧
    ∀ inputs artifact, state.load? (.notify path) = some (.ok inputs) →
      inputs.render generator after.candidates after.themeRevision = .ok artifact →
      after.inputs = some inputs ∧ after.reply = .ok artifact := by
  intro start loads state after
  have settledStart := settled_opened tree places generator
  have loadedStart := loaded_opened tree places generator
  have settled : state.session.Settled := settled_run settledStart steps
  have loaded : Loaded state.session places generator loads := loaded_run settledStart loadedStart steps
  have reads : Reads places loads := by
    intro load member
    rcases List.mem_cons.1 member with rfl | later
    · exact ⟨tree, rfl⟩
    · exact loadedStart.reads_perform settledStart steps load later
  exact ⟨loaded.load?_notify path, input_known reads,
    fun inputs artifact success made => reply_of_load settled loaded success made⟩

def configuredPage (settings : String) : FileTree :=
  ⟨[("page.html", .file "flex".toUTF8),
    ("site.css", .file "@import \"windsmith\";\n@config \"./theme.toml\";\n".toUTF8),
    ("theme.toml", .file settings.toUTF8)], []⟩

-- The settings are broken when the stylesheet first names them, and repaired afterwards.
def repairedRun : List DevStep :=
  [.files (configuredPage "[theme.colors\n"), .notify ⟨"/site.css"⟩,
    .files (configuredPage "[theme.colors]\nred = \"red\"\n")]

theorem load_attempted_for_input :
    let start := opened onePage onePlace Generator.manifest
    let state := start.run repairedRun
    let after := (state.perform (.notify ⟨"/site.css"⟩)).session
    (start.loads repairedRun).map Except.isOk = [false] ∧
      (state.load? (.notify ⟨"/theme.toml"⟩)).isNone ∧
      ∃ inputs artifact, state.load? (.notify ⟨"/site.css"⟩) = some (.ok inputs) ∧
        inputs.render Generator.manifest after.candidates after.themeRevision = .ok artifact ∧
        after.reply = .ok artifact ∧
        artifact.css = ":root \x7b\n  --colors-red: red;\n\x7d\n" := by
  intro start state after
  have rendered : ((ProjectInputs.read state.tree onePlace).bind fun inputs =>
      inputs.render Generator.manifest after.candidates after.themeRevision).toOption.map
        Artifact.css = some ":root \x7b\n  --colors-red: red;\n\x7d\n" := by decide +kernel
  obtain ⟨attempt, -, replies⟩ :=
    load_attempted_iff_known onePage onePlace Generator.manifest repairedRun ⟨"/site.css"⟩
  rw [if_pos (by decide +kernel)] at attempt
  refine ⟨by decide +kernel, by decide +kernel, ?_⟩
  cases read : ProjectInputs.read state.tree onePlace with
  | error error => simp [read, Except.bind, Except.toOption] at rendered
  | ok inputs =>
    simp only [read, Except.bind] at rendered
    cases made : inputs.render Generator.manifest after.candidates after.themeRevision with
    | error error => simp [made, Except.toOption] at rendered
    | ok artifact =>
      have success := attempt.trans (congrArg some read)
      exact ⟨inputs, artifact, success, made, (replies inputs artifact success made).2,
        by simpa [made, Except.toOption] using rendered⟩

/-- The next notification behind a failed generation makes another one exactly if it loads the theme
again or adds candidates. Otherwise the artifact stays out of date. -/
theorem generation_retried_iff (tree : FileTree) (places : ProjectPlaces) (generator : Generator)
    (steps : List DevStep) (path : Path) {change : Change} :
    let state := (opened tree places generator).run steps
    let after := (state.perform (.notify path)).session
    state.session.isUpToDate = false →
    state.session.meaningOf state.tree path = some change →
    (∀ artifact, state.session.rendering ≠ some (.ok artifact)) ∧
    after.schedule.generations = state.session.schedule.generations +
      (change.remakes state.session.candidates after.candidates).toNat ∧
    (change.remakes state.session.candidates after.candidates = true →
      ∀ outcome, after.rendering = some outcome →
        match outcome with
        | .ok artifact => after.artifact = some artifact
        | .error error => after.artifact = state.session.artifact ∧
          after.diagnostics.getLast? = some (Diagnostic.ofFault .dev error)) ∧
    (change.remakes state.session.candidates after.candidates = false →
      after.artifact = state.session.artifact ∧ after.isUpToDate = false ∧
        after.rendering = state.session.rendering) := by
  intro state after outdated meant
  have settledStart := settled_opened tree places generator
  have settled : state.session.Settled := settled_run settledStart steps
  have loaded := loaded_run settledStart (loaded_opened tree places generator) steps
  have next := loaded_perform settled loaded (.notify path)
  have means : state.change? (.notify path) = some change := meant
  obtain ⟨entries, handles⟩ := perform_handles settled means
  have settledBefore := settled_with_entries settled entries
  have left := handles.artifact_eq settledBefore
  have never : isUpToDate { after with artifact := state.session.artifact } = false := by
    rw [← Bool.not_eq_true]
    intro current
    have old : state.session.isUpToDate = true := (handles.same_of_current settledBefore current).2
    simp [outdated] at old
  refine ⟨?_, by rw [handles.schedule]; rfl, ?_, ?_⟩
  · intro artifact made
    simp [settled.isUpToDate_of_rendering made] at outdated
  · rintro asked (error | artifact) outcome
    · refine ⟨by rw [left, outcome], ?_⟩
      rw [handles.reports asked error outcome never, next.mode]
    · rw [left, outcome]
  · intro idle
    have kept : after.artifact = state.session.artifact := by
      rw [handles.artifact, idle]
      rfl
    refine ⟨kept, ?_, handles.rendering_of_idle idle⟩
    rw [← never]
    simp [isUpToDate, kept]

-- The page has a candidate that the generator refuses, and nothing new when it is read again.
theorem refused_page_not_retried :
    let generator := Generator.refusing "flex" Generator.manifest
    let state := (opened onePage onePlace generator).run [.request ⟨"page.html"⟩]
    let after := (state.perform (.notify ⟨"/page.html"⟩)).session
    state.session.isUpToDate = false ∧
      state.session.meaningOf state.tree ⟨"/page.html"⟩ = some (.source ⟨"/page.html"⟩) ∧
      state.session.diagnostics.length = 1 ∧ after.diagnostics.length = 1 ∧
      after.isUpToDate = false := by
  intro generator state after
  have outdated : state.session.isUpToDate = false := by decide +kernel
  have meant : state.session.meaningOf state.tree ⟨"/page.html"⟩ =
      some (.source ⟨"/page.html"⟩) := by decide +kernel
  have retry := generation_retried_iff onePage onePlace generator [.request ⟨"page.html"⟩]
    ⟨"/page.html"⟩ outdated meant
  have still := (retry.2.2.2 (by decide +kernel)).2.1
  exact ⟨outdated, meant, by decide +kernel, by decide +kernel, still⟩

end DevState

end UtilityCss
