import UtilityCss.Proofs.Session.Cycle

set_option autoImplicit false

namespace UtilityCss

def Artifact.FollowedBy (first second : Artifact) : Prop :=
  first = second ∨ first.themeRevision ≤ second.themeRevision ∧
    first.candidatesRevision ≤ second.candidatesRevision ∧
      (first.themeRevision < second.themeRevision ∨
        first.candidatesRevision < second.candidatesRevision)

theorem Artifact.FollowedBy.trans {first second third : Artifact}
    (followed : first.FollowedBy second) (following : second.FollowedBy third) :
    first.FollowedBy third := by
  rcases followed with rfl | followed
  · exact following
  rcases following with rfl | following
  · exact .inr followed
  · exact .inr (by omega)

theorem Artifact.FollowedBy.eq_of_same {first second : Artifact}
    (followed : first.FollowedBy second) (theme : first.themeRevision = second.themeRevision)
    (candidates : first.candidatesRevision = second.candidatesRevision) : first = second := by
  rcases followed with rfl | followed
  · rfl
  · omega

namespace LiveSession

structure Settled (session : LiveSession) : Prop where
  rests : session.schedule.Rests
  silent : session.delivery = .none
  keeps : session.KeepsTheme
  within : ∀ artifact, session.artifact = some artifact →
    artifact.themeRevision ≤ session.themeRevision ∧
      artifact.candidatesRevision ≤ session.candidates.revision
  rendered : ∀ artifact, session.rendering = some (.ok artifact) → session.artifact = some artifact
  failed : ∀ error, session.rendering = some (.error error) → session.isUpToDate = false

theorem isUpToDate_iff {session : LiveSession} :
    session.isUpToDate = true ↔ ∃ artifact, session.artifact = some artifact ∧
      artifact.themeRevision = session.themeRevision ∧
        artifact.candidatesRevision = session.candidates.revision := by
  simp [isUpToDate, Artifact.isMadeFrom, Option.any_eq_true]

theorem revisions_of_rendering {session : LiveSession} {artifact : Artifact}
    (made : session.rendering = some (.ok artifact)) :
    artifact.themeRevision = session.themeRevision ∧
      artifact.candidatesRevision = session.candidates.revision := by
  obtain ⟨inputs, -, equal⟩ := Option.map_eq_some_iff.1 made
  exact ProjectInputs.revisions_of_render equal

theorem Settled.isUpToDate_of_rendering {session : LiveSession} {artifact : Artifact}
    (settled : session.Settled) (made : session.rendering = some (.ok artifact)) :
    session.isUpToDate = true :=
  isUpToDate_iff.2 ⟨artifact, settled.rendered artifact made, revisions_of_rendering made⟩

theorem settled_fresh (places : ProjectPlaces) (generator : Generator) :
    (fresh .dev places generator .none).Settled where
  rests := Schedule.rests_idle
  silent := rfl
  keeps := by simp [KeepsTheme, fresh]
  within := by simp [fresh]
  rendered := by simp [rendering, fresh]
  failed := by simp [rendering, fresh]

variable {session before after : LiveSession} {tree : FileTree} {change : Change}

theorem themeRevision_le_afterLoad (load : Option (Except BuildError ProjectInputs)) :
    session.themeRevision ≤ (session.afterLoad load).themeRevision := by
  unfold afterLoad
  split <;> simp [install]

theorem inputs_afterLoad_of_same (load : Option (Except BuildError ProjectInputs))
    (same : (session.afterLoad load).themeRevision = session.themeRevision) :
    (session.afterLoad load).inputs = session.inputs := by
  unfold afterLoad at same ⊢
  split
  · simp [install] at same
  · rfl

namespace Handles

theorem themeRevision_le (handles : Handles tree change before after) :
    before.themeRevision ≤ after.themeRevision :=
  handles.themeRevision ▸ themeRevision_le_afterLoad _

theorem candidates_le (handles : Handles tree change before after) :
    before.candidates.revision ≤ after.candidates.revision := by
  obtain ⟨found, merged⟩ := handles.candidates
  exact merged ▸ before.candidates.revision_le_merge found

-- A change that starts no new revision changes nothing that an artifact is made from.
theorem rendering_eq (handles : Handles tree change before after)
    (theme : after.themeRevision = before.themeRevision)
    (candidates : after.candidates.revision = before.candidates.revision) :
    after.rendering = before.rendering := by
  obtain ⟨found, merged⟩ := handles.candidates
  have sameInputs : after.inputs = before.inputs := by
    rw [handles.inputs, inputs_afterLoad_of_same _ (handles.themeRevision ▸ theme)]
  have sameCandidates : after.candidates = before.candidates := by
    rw [merged, before.candidates.merge_of_same_revision found (merged ▸ candidates)]
  simp [rendering, sameInputs, sameCandidates, theme, handles.generator]

theorem rendering_of_idle (handles : Handles tree change before after)
    (idle : change.remakes before.candidates after.candidates = false) :
    after.rendering = before.rendering := by
  obtain ⟨noTheme, candidates⟩ : change.isTheme = false ∧
      after.candidates.revision = before.candidates.revision := by
    simpa [Change.remakes] using idle
  refine handles.rendering_eq ?_ candidates
  rw [handles.themeRevision]
  cases change with
  | source path => rfl
  | theme path => simp [Change.isTheme] at noTheme

-- An artifact from before the change can only be current if nothing new came with the change.
theorem same_of_current (handles : Handles tree change before after) (settled : before.Settled)
    (current : isUpToDate { after with artifact := before.artifact } = true) :
    after.rendering = before.rendering ∧ before.isUpToDate = true := by
  obtain ⟨artifact, kept, theme, candidates⟩ := isUpToDate_iff.1 current
  have ⟨themeBound, candidatesBound⟩ := settled.within artifact kept
  have sameTheme : after.themeRevision = before.themeRevision :=
    Nat.le_antisymm (theme ▸ themeBound) handles.themeRevision_le
  have sameCandidates : after.candidates.revision = before.candidates.revision :=
    Nat.le_antisymm (candidates ▸ candidatesBound) handles.candidates_le
  exact ⟨handles.rendering_eq sameTheme sameCandidates,
    isUpToDate_iff.2 ⟨artifact, kept, theme.trans sameTheme, candidates.trans sameCandidates⟩⟩

-- The artifact behind a change is the rendering, or the one from before if there is none.
theorem artifact_eq (handles : Handles tree change before after) (settled : before.Settled) :
    after.artifact = match after.rendering with
      | some (.ok artifact) => some artifact
      | _ => before.artifact := by
  have kept (artifact : Artifact) (same : after.rendering = before.rendering)
      (made : after.rendering = some (.ok artifact)) : before.artifact = some artifact :=
    settled.rendered artifact (same ▸ made)
  have same : rendering { after with artifact := before.artifact } = after.rendering := rfl
  rw [handles.artifact]
  cases asked : change.remakes before.candidates after.candidates with
  | false =>
    have idle := handles.rendering_of_idle asked
    rcases made : after.rendering with _ | (error | artifact)
    · rfl
    · rfl
    · exact kept artifact idle made
  | true =>
    rcases made : after.rendering with _ | (error | artifact)
    · simp [remade, same, made]
    · simp [remade, same, made]
    · simp only [remade, same, made, if_true]
      split
      · rename_i current
        exact kept artifact (handles.same_of_current settled current).1 made
      · rfl

theorem settled (handles : Handles tree change before after) (settled : before.Settled) :
    after.Settled where
  rests := handles.schedule ▸ Schedule.rests_closed _
  silent := handles.delivery.trans settled.silent
  keeps := handles.keeps
  within artifact kept := by
    rw [handles.artifact_eq settled] at kept
    split at kept
    · rename_i made rendered
      obtain rfl := Option.some.inj kept
      have ⟨theme, candidates⟩ := revisions_of_rendering rendered
      exact ⟨Nat.le_of_eq theme, Nat.le_of_eq candidates⟩
    · have ⟨theme, candidates⟩ := settled.within artifact kept
      exact ⟨Nat.le_trans theme handles.themeRevision_le,
        Nat.le_trans candidates handles.candidates_le⟩
  rendered artifact made := by rw [handles.artifact_eq settled, made]
  failed error failed := by
    have kept : after.artifact = before.artifact := by rw [handles.artifact_eq settled, failed]
    cases current : after.isUpToDate with
    | false => rfl
    | true =>
      have same := handles.same_of_current settled (by simpa [isUpToDate, kept] using current)
      exact absurd same.2 (by simp [settled.failed error (same.1 ▸ failed)])

-- An artifact is replaced by itself or by one with later revisions.
theorem follows (handles : Handles tree change before after) (settled : before.Settled)
    {first : Artifact} (kept : before.artifact = some first) :
    ∃ second, after.artifact = some second ∧ first.FollowedBy second := by
  rw [handles.artifact_eq settled]
  split
  · rename_i second made
    have ⟨theme, candidates⟩ := revisions_of_rendering made
    have ⟨themeBound, candidatesBound⟩ := settled.within first kept
    have themeLe := Nat.le_trans themeBound handles.themeRevision_le
    have candidatesLe := Nat.le_trans candidatesBound handles.candidates_le
    refine ⟨second, rfl, ?_⟩
    by_cases current : first.themeRevision = after.themeRevision ∧
        first.candidatesRevision = after.candidates.revision
    · have same := handles.same_of_current settled
        (isUpToDate_iff.2 ⟨first, kept, current.1, current.2⟩)
      have again := settled.rendered second (same.1 ▸ made)
      exact .inl (Option.some.inj (kept.symm.trans again))
    · exact .inr (by omega)
  · exact ⟨first, kept, .inl rfl⟩

end Handles

end LiveSession

/-- One step of a dev session: the files are others now, a page is asked for, or a file is said to
have changed. -/
inductive DevStep where
  | files (tree : FileTree)
  | request (entry : Path)
  | notify (path : Path)

structure DevState where
  tree : FileTree
  session : LiveSession

namespace DevState

open LiveSession

def opened (tree : FileTree) (places : ProjectPlaces) (generator : Generator) : DevState :=
  ⟨tree, ((fresh .dev places generator .none).start tree).2⟩

def perform (state : DevState) : DevStep → DevState
  | .files tree => { state with tree := tree }
  | .request entry => { state with session := state.session.request state.tree entry }
  | .notify path => { state with session := (state.session.notify state.tree path).2 }

def run (state : DevState) (steps : List DevStep) : DevState := steps.foldl perform state

def change? (state : DevState) : DevStep → Option Change
  | .files _ => none
  | .request entry =>
    let page := state.session.entryOf entry
    if state.session.isNewEntry page then some (.source page) else none
  | .notify path => state.session.meaningOf state.tree path

def load? (state : DevState) (step : DevStep) : Option (Except BuildError ProjectInputs) :=
  (state.change? step).bind (Change.load? state.tree state.session.places)

def loads (state : DevState) : List DevStep → List (Except BuildError ProjectInputs)
  | [] => []
  | step :: steps => (state.load? step).toList ++ (state.perform step).loads steps

def successes (loads : List (Except BuildError ProjectInputs)) : List ProjectInputs :=
  loads.filterMap Except.toOption

variable {state : DevState}

theorem perform_of_no_change {step : DevStep} (nothing : state.change? step = none) :
    (state.perform step).session = state.session := by
  cases step with
  | files tree => rfl
  | request entry =>
    have known : state.session.isNewEntry (state.session.entryOf entry) = false := by
      simpa [change?] using nothing
    simp [perform, request, known]
  | notify path =>
    have meaningless : state.session.meaningOf state.tree path = none := nothing
    simp [perform, notify, meaningless]

theorem perform_handles (settled : state.session.Settled) {step : DevStep} {change : Change}
    (means : state.change? step = some change) :
    ∃ entries, Handles state.tree change { state.session with entries := entries }
      (state.perform step).session := by
  cases step with
  | files tree => simp [change?] at means
  | request entry =>
    obtain ⟨new, rfl⟩ : state.session.isNewEntry (state.session.entryOf entry) = true ∧
        Change.source (state.session.entryOf entry) = change := by
      simpa [change?] using means
    obtain ⟨after, equal, handles⟩ := handle_spec
      { state.session with
        entries := state.session.entries ++ [state.session.entryOf entry] }
      settled.rests settled.silent settled.keeps state.tree
      (.source (state.session.entryOf entry))
    refine ⟨state.session.entries ++ [state.session.entryOf entry], ?_⟩
    simpa [perform, request, new, equal] using handles
  | notify path =>
    have meaning : state.session.meaningOf state.tree path = some change := means
    obtain ⟨after, equal, handles⟩ := handle_spec state.session settled.rests settled.silent
      settled.keeps state.tree change
    refine ⟨state.session.entries, ?_⟩
    simpa [perform, notify, meaning, equal] using handles

theorem opened_handles (tree : FileTree) (places : ProjectPlaces) (generator : Generator) :
    Handles tree (.theme places.input) (fresh .dev places generator .none)
      (opened tree places generator).session := by
  have settled := settled_fresh places generator
  obtain ⟨after, equal, handles⟩ := handle_spec (fresh .dev places generator .none) settled.rests
    settled.silent settled.keeps tree (.theme places.input)
  have same : (opened tree places generator).session = after := congrArg Prod.snd equal
  exact same ▸ handles

-- The pages that were asked for bear on nothing that `Settled` says.
theorem settled_with_entries (settled : state.session.Settled) (entries : List Path) :
    LiveSession.Settled { state.session with entries := entries } :=
  ⟨settled.rests, settled.silent, settled.keeps, settled.within, settled.rendered, settled.failed⟩

theorem settled_opened (tree : FileTree) (places : ProjectPlaces) (generator : Generator) :
    (opened tree places generator).session.Settled :=
  (opened_handles tree places generator).settled (settled_fresh places generator)

theorem settled_perform (settled : state.session.Settled) (step : DevStep) :
    (state.perform step).session.Settled := by
  cases means : state.change? step with
  | none => rwa [perform_of_no_change means]
  | some change =>
    obtain ⟨entries, handles⟩ := perform_handles settled means
    exact handles.settled (settled_with_entries settled entries)

theorem settled_run (settled : state.session.Settled) (steps : List DevStep) :
    (state.run steps).session.Settled := by
  induction steps generalizing state with
  | nil => exact settled
  | cons step steps ih => exact ih (settled_perform settled step)

-- What one step leaves as the artifact: the rendering, or the one from before if there is none.
theorem artifact_perform (settled : state.session.Settled) (step : DevStep) :
    (state.perform step).session.artifact = match (state.perform step).session.rendering with
      | some (.ok artifact) => some artifact
      | _ => state.session.artifact := by
  cases means : state.change? step with
  | none =>
    rw [perform_of_no_change means]
    split
    · rename_i artifact made
      exact settled.rendered artifact made
    · rfl
  | some change =>
    obtain ⟨entries, handles⟩ := perform_handles settled means
    exact handles.artifact_eq (settled_with_entries settled entries)

theorem followed_perform (settled : state.session.Settled) (step : DevStep) {first : Artifact}
    (kept : state.session.artifact = some first) :
    ∃ second, (state.perform step).session.artifact = some second ∧ first.FollowedBy second := by
  cases means : state.change? step with
  | none =>
    rw [perform_of_no_change means]
    exact ⟨first, kept, .inl rfl⟩
  | some change =>
    obtain ⟨entries, handles⟩ := perform_handles settled means
    exact handles.follows (settled_with_entries settled entries) kept

theorem followed_run (settled : state.session.Settled) (steps : List DevStep) {first : Artifact}
    (kept : state.session.artifact = some first) :
    ∃ last, (state.run steps).session.artifact = some last ∧ first.FollowedBy last := by
  induction steps generalizing state first with
  | nil => exact ⟨first, kept, .inl rfl⟩
  | cons step steps ih =>
    obtain ⟨second, next, followed⟩ := followed_perform settled step kept
    obtain ⟨last, reached, following⟩ := ih (settled_perform settled step) next
    exact ⟨last, reached, followed.trans following⟩

@[simp] theorem successes_nil : successes [] = [] := rfl

@[simp] theorem successes_cons_ok (inputs : ProjectInputs)
    (loads : List (Except BuildError ProjectInputs)) :
    successes (.ok inputs :: loads) = inputs :: successes loads := rfl

@[simp] theorem successes_cons_error (error : BuildError)
    (loads : List (Except BuildError ProjectInputs)) :
    successes (.error error :: loads) = successes loads := rfl

theorem successes_append (first second : List (Except BuildError ProjectInputs)) :
    successes (first ++ second) = successes first ++ successes second :=
  List.filterMap_append

structure Loaded (session : LiveSession) (places : ProjectPlaces) (generator : Generator)
    (loads : List (Except BuildError ProjectInputs)) : Prop where
  mode : session.mode = .dev
  places : session.places = places
  generator : session.generator = generator
  inputs : session.inputs = (successes loads).getLast?
  themeRevision : session.themeRevision = (successes loads).length

theorem loaded_perform {places : ProjectPlaces} {generator : Generator}
    {before : List (Except BuildError ProjectInputs)} (settled : state.session.Settled)
    (loaded : Loaded state.session places generator before) (step : DevStep) :
    Loaded (state.perform step).session places generator
      (before ++ (state.load? step).toList) := by
  cases means : state.change? step with
  | none => simpa [load?, means, perform_of_no_change means] using loaded
  | some change =>
    obtain ⟨entries, handles⟩ := perform_handles settled means
    have attempt : state.load? step = change.load? state.tree state.session.places := by
      simp [load?, means]
    exact
      { mode := handles.mode.trans loaded.mode
        places := handles.places.trans loaded.places
        generator := handles.generator.trans loaded.generator
        inputs := by
          rw [handles.inputs, attempt, successes_append]
          rcases change.load? state.tree state.session.places with _ | (error | inputs)
          · simpa [afterLoad] using loaded.inputs
          · simpa [afterLoad] using loaded.inputs
          · simp [afterLoad, install]
        themeRevision := by
          rw [handles.themeRevision, attempt, successes_append, List.length_append]
          rcases change.load? state.tree state.session.places with _ | (error | inputs)
          · simpa [afterLoad] using loaded.themeRevision
          · simpa [afterLoad] using loaded.themeRevision
          · simpa [afterLoad, install] using loaded.themeRevision }

theorem loaded_run {places : ProjectPlaces} {generator : Generator}
    {before : List (Except BuildError ProjectInputs)} (settled : state.session.Settled)
    (loaded : Loaded state.session places generator before) (steps : List DevStep) :
    Loaded (state.run steps).session places generator (before ++ state.loads steps) := by
  induction steps generalizing state before with
  | nil => simpa [loads, run] using loaded
  | cons step steps ih =>
    have next := ih (settled_perform settled step) (loaded_perform settled loaded step)
    rwa [List.append_assoc] at next

theorem loaded_opened (tree : FileTree) (places : ProjectPlaces) (generator : Generator) :
    Loaded (opened tree places generator).session places generator
      [ProjectInputs.read tree places] := by
  have handles := opened_handles tree places generator
  refine ⟨handles.mode, handles.places, handles.generator, ?_, ?_⟩
  · rw [handles.inputs]
    simp only [Change.load?, fresh]
    cases ProjectInputs.read tree places <;>
      simp [afterLoad, install]
  · rw [handles.themeRevision]
    simp only [Change.load?, fresh]
    cases ProjectInputs.read tree places <;>
      simp [afterLoad, install]

end DevState

end UtilityCss
