import UtilityCss.Proofs.Candidate.Pool
import UtilityCss.Proofs.Schedule.Delivery
import UtilityCss.Session.Dev

set_option autoImplicit false

namespace UtilityCss

def ProjectInputs.render (inputs : ProjectInputs) (generator : Generator)
    (candidates : CandidatePool) (revision : Nat) : Except BuildError Artifact := do
  let theme ← inputs.themeIfNeeded
  Artifact.render generator inputs.stylesheet theme candidates revision

theorem ProjectInputs.render_eq_ok {inputs : ProjectInputs} {generator : Generator}
    {candidates : CandidatePool} {revision : Nat} {artifact : Artifact} :
    inputs.render generator candidates revision = .ok artifact ↔
      (inputs.stylesheet.isRoot = true ∧ ∃ theme css, inputs.theme = .ok theme ∧
        generator theme candidates = .ok css ∧
        artifact = ⟨Artifact.textOf inputs.stylesheet css, revision, candidates.revision, false⟩) ∨
      (inputs.stylesheet.isRoot = false ∧
        artifact = ⟨inputs.stylesheet.raw, revision, candidates.revision, true⟩) := by
  unfold render themeIfNeeded Artifact.render
  cases inputs.stylesheet.isRoot with
  | false => simp [bind, Except.bind, eq_comm]
  | true =>
    cases inputs.theme with
    | error error => simp [bind, Except.bind]
    | ok theme =>
      cases generated : generator theme candidates <;>
        simp [bind, Except.bind, pure, Except.pure, generated, eq_comm]

theorem ProjectInputs.revisions_of_render {inputs : ProjectInputs} {generator : Generator}
    {candidates : CandidatePool} {revision : Nat} {artifact : Artifact}
    (made : inputs.render generator candidates revision = .ok artifact) :
    artifact.themeRevision = revision ∧ artifact.candidatesRevision = candidates.revision := by
  rcases render_eq_ok.1 made with ⟨-, theme, css, -, -, rfl⟩ | ⟨-, rfl⟩
  · exact ⟨rfl, rfl⟩
  · exact ⟨rfl, rfl⟩

def Change.work : Change → Workload
  | .source path => ⟨[path], false⟩
  | .theme _ => ⟨[], true⟩

def Change.load? (tree : FileTree) (places : ProjectPlaces) :
    Change → Option (Except BuildError ProjectInputs)
  | .source _ => none
  | .theme _ => some (ProjectInputs.read tree places)

def Workload.load? (tree : FileTree) (places : ProjectPlaces) (work : Workload) :
    Option (Except BuildError ProjectInputs) :=
  if work.reloadTheme then some (ProjectInputs.read tree places) else none

def Workload.rescans (tree : FileTree) (session : LiveSession) (work : Workload) : List Path :=
  match work.load? tree session.places with
  | some (.ok inputs) => session.rescan tree inputs
  | _ => []

def Workload.reads (tree : FileTree) (session : LiveSession) (work : Workload) : List Path :=
  work.paths ++ work.rescans tree session

theorem Change.load?_work (tree : FileTree) (places : ProjectPlaces) (change : Change) :
    change.work.load? tree places = change.load? tree places := by
  cases change <;> rfl

/-- Whether a change leads to a generation: the theme changed, or the candidates grew. -/
def Change.remakes (change : Change) (before after : CandidatePool) : Bool :=
  change.isTheme || after.revision ≠ before.revision

theorem Change.remakes_merge (change : Change) (pool : CandidatePool) (found : List String) :
    change.remakes pool (pool.merge found) = (pool.grows found || change.isTheme) := by
  have grows : pool.grows found = decide ((pool.merge found).revision ≠ pool.revision) := by
    rw [Bool.eq_iff_iff, decide_eq_true_iff]
    exact pool.grows_iff found
  rw [remakes, grows, Bool.or_comm]

namespace Schedule

structure Rests (c : Schedule) : Prop where
  stage : c.stage = none
  paths : c.pendingPaths = []
  theme : c.pendingTheme = false

theorem rests_idle : idle.Rests := ⟨rfl, rfl, rfl⟩

variable {c : Schedule}

def opened (c : Schedule) (change : Change) : Schedule :=
  { c with
    stage := some .extracting
    rerun := false
    pendingPaths := []
    pendingTheme := false
    themeChanged := change.isTheme }

def generating (c : Schedule) (change : Change) : Schedule :=
  { c.opened change with stage := some .generating, generations := c.generations + 1 }

def closed (c : Schedule) (generated : Bool) : Schedule :=
  { c with
    stage := none
    rerun := false
    pendingPaths := []
    pendingTheme := false
    themeChanged := false
    cycles := c.cycles + 1
    generations := c.generations + generated.toNat }

theorem rests_closed (generated : Bool) : (c.closed generated).Rests := ⟨rfl, rfl, rfl⟩

theorem noteChange_of_rests (rests : c.Rests) (change : Change) :
    c.noteChange change = (c.opened change, .extract change.work) := by
  cases change <;>
    simp [noteChange, addChange, isIdle, openCycle, opened, Change.work, Change.isTheme,
      Path.insertOrdered, rests.stage, rests.paths, rests.theme]

theorem noteExtracted_opened (change : Change) (grew : Bool) :
    (c.opened change).noteExtracted grew =
      if grew || change.isTheme then (c.generating change, .generate)
      else (c.closed false, .settle) := by
  simp [noteExtracted, closeCycle, opened, generating, closed]

theorem noteGenerated_generating (change : Change) :
    (c.generating change).noteGenerated = (c.closed true, .settle) := by
  simp [noteGenerated, closeCycle, opened, generating, closed]

end Schedule

namespace LiveSession

variable {session : LiveSession} {tree : FileTree} {change : Change}

/-- What a generation would give, made from nothing but the inputs and the candidates. -/
def rendering (session : LiveSession) : Option (Except BuildError Artifact) :=
  session.inputs.map fun inputs =>
    inputs.render session.generator session.candidates session.themeRevision

def KeepsTheme (session : LiveSession) : Prop :=
  ∀ theme, session.theme = some theme → ∃ inputs, session.inputs = some inputs ∧
    inputs.stylesheet.isRoot = true ∧ inputs.theme = .ok theme

def afterLoad (session : LiveSession) : Option (Except BuildError ProjectInputs) → LiveSession
  | some (.ok inputs) => session.install inputs
  | _ => session

theorem foldl_note (errors : List BuildError) (session : LiveSession) :
    ∃ kept, errors.foldl note session = { session with diagnostics := kept } := by
  induction errors generalizing session with
  | nil => exact ⟨session.diagnostics, rfl⟩
  | cons error errors ih =>
    obtain ⟨kept, equal⟩ := ih (session.note error)
    exact ⟨kept, equal⟩

theorem readFiles_eq (session : LiveSession) (tree : FileTree) (paths : List Path) :
    ∃ kept, session.readFiles tree paths =
      ({ session with
          diagnostics := kept
          candidates := session.candidates.merge (Candidate.ofFiles tree paths).candidates },
        session.candidates.grows (Candidate.ofFiles tree paths).candidates) := by
  obtain ⟨kept, equal⟩ := foldl_note (Candidate.ofFiles tree paths).failures session
  exact ⟨kept, by simp [readFiles, equal]⟩

theorem gather_eq (session : LiveSession) (tree : FileTree) (work : Workload) :
    ∃ kept, session.gather tree work =
      ({ session.afterLoad (work.load? tree session.places) with
          diagnostics := kept
          candidates :=
            session.candidates.merge (Candidate.ofFiles tree (work.reads tree session)).candidates },
        session.candidates.grows (Candidate.ofFiles tree (work.reads tree session)).candidates) := by
  cases reloads : work.reloadTheme with
  | false =>
    have none : work.load? tree session.places = none := by simp [Workload.load?, reloads]
    simp only [gather, reloads, Workload.reads, Workload.rescans, none, List.append_nil]
    exact readFiles_eq session tree work.paths
  | true =>
    have load : work.load? tree session.places = some (ProjectInputs.read tree session.places) := by
      simp [Workload.load?, reloads]
    simp only [gather, reloads, Workload.reads, Workload.rescans, load, if_true]
    cases ProjectInputs.read tree session.places with
    | ok inputs => exact readFiles_eq (session.install inputs) tree _
    | error error =>
      simp only [List.append_nil]
      exact readFiles_eq (session.note error) tree work.paths

theorem afterLoad_eq (session : LiveSession) (schedule : Schedule)
    (load : Option (Except BuildError ProjectInputs)) :
    LiveSession.afterLoad { session with schedule := schedule } load =
      { session with
        schedule := schedule
        inputs := (session.afterLoad load).inputs
        themeRevision := (session.afterLoad load).themeRevision
        theme := (session.afterLoad load).theme } := by
  unfold afterLoad
  split <;> rfl

theorem keepsTheme_afterLoad (keeps : session.KeepsTheme)
    (load : Option (Except BuildError ProjectInputs)) : (session.afterLoad load).KeepsTheme := by
  unfold afterLoad
  split
  · intro theme kept
    simp [install] at kept
  · exact keeps

theorem themeFor_eq (keeps : session.KeepsTheme) {inputs : ProjectInputs}
    (loaded : session.inputs = some inputs) :
    session.themeFor inputs = inputs.themeIfNeeded := by
  unfold themeFor
  split
  · rename_i theme kept
    obtain ⟨other, same, isRoot, resolved⟩ := keeps theme kept
    obtain rfl := Option.some.inj (loaded.symm.trans same)
    simp [ProjectInputs.themeIfNeeded, isRoot, resolved]
  · rfl

theorem keepTheme_eq (keeps : session.KeepsTheme) {inputs : ProjectInputs} {theme : Theme}
    (loaded : session.inputs = some inputs) (resolved : inputs.themeIfNeeded = .ok theme) :
    ∃ kept, session.keepTheme inputs theme = { session with theme := kept } ∧
      (session.keepTheme inputs theme).KeepsTheme := by
  unfold keepTheme
  split
  · rename_i isRoot
    refine ⟨some theme, rfl, ?_⟩
    rintro other same
    obtain rfl := Option.some.inj same
    exact ⟨inputs, loaded, isRoot, by simpa [ProjectInputs.themeIfNeeded, isRoot] using resolved⟩
  · exact ⟨session.theme, rfl, keeps⟩

theorem accept_eq (session : LiveSession) (tree : FileTree) (silent : session.delivery = .none)
    (artifact : Artifact) : ∃ published, session.accept tree artifact =
      (tree, { session with artifact := some artifact, published := published }) := by
  unfold accept
  dsimp only
  split
  · exact ⟨session.published, rfl⟩
  · exact ⟨some artifact, by simp [deliver, silent]⟩

def remade (session : LiveSession) : Option Artifact :=
  match session.rendering with
  | some (.ok artifact) => if session.isUpToDate then session.artifact else some artifact
  | _ => session.artifact

theorem remade_of_current (current : session.isUpToDate = true) :
    session.remade = session.artifact := by
  unfold remade
  split <;> simp [current]

theorem rendering_of_error {inputs : ProjectInputs} {error : BuildError}
    (loaded : session.inputs = some inputs) (failed : inputs.themeIfNeeded = .error error) :
    session.rendering = some (.error error) := by
  simp [rendering, loaded, ProjectInputs.render, failed, bind, Except.bind]

theorem rendering_of_theme {inputs : ProjectInputs} {theme : Theme}
    (loaded : session.inputs = some inputs) (resolved : inputs.themeIfNeeded = .ok theme) :
    session.rendering = some (Artifact.render session.generator inputs.stylesheet theme
      session.candidates session.themeRevision) := by
  simp [rendering, loaded, ProjectInputs.render, resolved, bind, Except.bind]

structure Remakes (before after : LiveSession) : Prop where
  changed : ∃ theme published kept, after =
    { before with
      theme := theme
      artifact := before.remade
      published := published
      diagnostics := kept }
  keeps : after.KeepsTheme
  reports : ∀ error, before.rendering = some (.error error) → before.isUpToDate = false →
    after.diagnostics.getLast? = some (Diagnostic.ofFault before.mode error)

theorem getLast?_note (session : LiveSession) (error : BuildError) :
    (session.note error).diagnostics.getLast? = some (Diagnostic.ofFault session.mode error) := by
  simp [note]

theorem remakes_of_error {error : BuildError} {theme : Option Theme}
    (failed : session.rendering = some (.error error))
    (keeps : LiveSession.KeepsTheme { session with theme := theme }) :
    session.Remakes (LiveSession.note { session with theme := theme } error) where
  changed := ⟨theme, session.published, _, by simp only [remade, failed]; rfl⟩
  keeps := keeps
  reports other same _ := by
    obtain rfl : error = other := by simpa [failed] using same
    exact getLast?_note _ error

theorem remake_spec (session : LiveSession) (tree : FileTree)
    (silent : session.delivery = .none) (keeps : session.KeepsTheme) :
    ∃ after, session.remake tree = (tree, after) ∧ session.Remakes after := by
  obtain missing | ⟨inputs, loaded⟩ := Option.eq_none_or_eq_some session.inputs
  · have nothing : session.rendering = none := by simp [rendering, missing]
    refine ⟨session.note (.generation "theme inputs could not be loaded"),
      by simp only [remake, missing], ?_, keeps, by simp [nothing]⟩
    exact ⟨session.theme, session.published, _, by simp only [remade, nothing]; rfl⟩
  cases current : session.isUpToDate with
  | true =>
    refine ⟨session, by simp [remake, loaded, current], ?_, keeps, by simp [current]⟩
    exact ⟨session.theme, session.published, session.diagnostics,
      by rw [remade_of_current current]⟩
  | false =>
    simp only [remake, loaded, current, themeFor_eq keeps loaded, Bool.false_eq_true, if_false]
    cases resolved : inputs.themeIfNeeded with
    | error error => exact ⟨_, rfl, remakes_of_error (rendering_of_error loaded resolved) keeps⟩
    | ok theme =>
      obtain ⟨kept, equal, keeping⟩ := keepTheme_eq keeps loaded resolved
      have rendered := rendering_of_theme loaded resolved
      rw [equal] at keeping
      simp only [equal]
      cases made : Artifact.render session.generator inputs.stylesheet theme session.candidates
          session.themeRevision with
      | error error => exact ⟨_, rfl, remakes_of_error (rendered.trans (congrArg some made)) keeping⟩
      | ok artifact =>
        obtain ⟨published, accepted⟩ := accept_eq { session with theme := kept } tree silent
          artifact
        refine ⟨_, accepted, ?_, keeping, by simp [rendered, made]⟩
        exact ⟨kept, published, session.diagnostics, by simp [remade, rendered, made, current]⟩

structure Handles (tree : FileTree) (change : Change) (before after : LiveSession) : Prop where
  mode : after.mode = before.mode
  places : after.places = before.places
  generator : after.generator = before.generator
  delivery : after.delivery = before.delivery
  entries : after.entries = before.entries
  inputs : after.inputs = (before.afterLoad (change.load? tree before.places)).inputs
  themeRevision :
    after.themeRevision = (before.afterLoad (change.load? tree before.places)).themeRevision
  candidates : ∃ found, after.candidates = before.candidates.merge found
  keeps : after.KeepsTheme
  schedule :
    after.schedule = before.schedule.closed (change.remakes before.candidates after.candidates)
  artifact : after.artifact =
    if change.remakes before.candidates after.candidates then
      LiveSession.remade { after with artifact := before.artifact }
    else before.artifact
  reports : change.remakes before.candidates after.candidates = true →
    ∀ error, after.rendering = some (.error error) →
      LiveSession.isUpToDate { after with artifact := before.artifact } = false →
      after.diagnostics.getLast? = some (Diagnostic.ofFault after.mode error)

theorem handle_spec (session : LiveSession) (rests : session.schedule.Rests)
    (silent : session.delivery = .none) (keeps : session.KeepsTheme) (tree : FileTree)
    (change : Change) :
    ∃ after, session.handle tree change = (tree, after) ∧ Handles tree change session after := by
  obtain ⟨kept, gathered⟩ :=
    gather_eq { session with schedule := session.schedule.opened change } tree change.work
  simp only [afterLoad_eq, Change.load?_work] at gathered
  generalize (Candidate.ofFiles tree (change.work.reads tree _)).candidates = found at gathered
  have loading := keepsTheme_afterLoad keeps (change.load? tree session.places)
  have asked := change.remakes_merge session.candidates found
  simp only [handle, advance, session.schedule.noteChange_of_rests rests, cycle, gathered,
    Schedule.noteExtracted_opened, ← asked]
  cases generates : change.remakes session.candidates (session.candidates.merge found) with
  | false =>
    exact ⟨_, rfl,
      { mode := rfl, places := rfl, generator := rfl, delivery := rfl, entries := rfl
        inputs := rfl
        themeRevision := rfl
        candidates := ⟨found, rfl⟩
        keeps := loading
        schedule := by simp [generates]
        artifact := by simp [generates]
        reports := by simp [generates] }⟩
  | true =>
    simp only [if_true]
    obtain ⟨after, made, ⟨theme, published, noted, rfl⟩, keeping, reports⟩ :=
      remake_spec
        { session with
          inputs := (session.afterLoad (change.load? tree session.places)).inputs
          themeRevision := (session.afterLoad (change.load? tree session.places)).themeRevision
          theme := (session.afterLoad (change.load? tree session.places)).theme
          candidates := session.candidates.merge found
          schedule := session.schedule.generating change
          diagnostics := kept }
        tree silent loading
    simp only [made, Schedule.noteGenerated_generating]
    exact ⟨_, rfl,
      { mode := rfl, places := rfl, generator := rfl, delivery := rfl, entries := rfl
        inputs := rfl
        themeRevision := rfl
        candidates := ⟨found, rfl⟩
        keeps := keeping
        schedule := by simp [generates]
        artifact := by simp only [generates, if_true]; rfl
        reports := fun _ => reports }⟩

end LiveSession

end UtilityCss
