import UtilityCss.Proofs.Session.Run

set_option autoImplicit false

namespace UtilityCss

def Change.reads (tree : FileTree) (session : LiveSession) : Change → List Path
  | .source path => [path]
  | .theme _ =>
    match ProjectInputs.read tree session.places with
    | .ok inputs => session.rescan tree inputs
    | .error _ => []

theorem Change.reads_work (tree : FileTree) (session : LiveSession) (change : Change) :
    change.work.reads tree session = change.reads tree session := by
  cases change with
  | source path => rfl
  | theme path =>
    simp only [Workload.reads, Workload.rescans, load?_work, load?, reads]
    cases ProjectInputs.read tree session.places <;> rfl

namespace LiveSession

variable {session : LiveSession} {tree : FileTree} {change : Change}

theorem candidates_gather (session : LiveSession) (tree : FileTree) (work : Workload) :
    (session.gather tree work).1.candidates =
      session.candidates.merge (Candidate.ofFiles tree (work.reads tree session)).candidates := by
  obtain ⟨kept, equal⟩ := gather_eq session tree work
  rw [equal]

theorem candidates_accept (session : LiveSession) (tree : FileTree) (artifact : Artifact) :
    (session.accept tree artifact).2.candidates = session.candidates := by
  unfold accept
  dsimp only
  split
  · rfl
  · unfold deliver
    dsimp only
    split
    · rfl
    · rfl
    · split <;> rfl

theorem candidates_remake (session : LiveSession) (tree : FileTree) :
    (session.remake tree).2.candidates = session.candidates := by
  unfold remake
  split
  · rfl
  split_ifs
  · rfl
  split
  · rfl
  dsimp only
  have kept (inputs : ProjectInputs) (theme : Theme) :
      (session.keepTheme inputs theme).candidates = session.candidates := by
    unfold keepTheme
    split_ifs <;> rfl
  split
  · exact kept _ _
  · rw [candidates_accept, kept]

theorem candidates_cycle (session : LiveSession) (tree : FileTree) (work : Workload) :
    (session.cycle tree work).2.candidates = (session.gather tree work).1.candidates := by
  unfold cycle
  obtain ⟨extracted, grew⟩ := session.gather tree work
  have kept {after : LiveSession} {instruction : Instruction}
      (advanced : extracted.advance (fun schedule => schedule.noteExtracted grew) =
        (after, instruction)) : after.candidates = extracted.candidates := by
    have same := congrArg (fun pair => pair.1.candidates) advanced
    exact same.symm
  dsimp only
  split
  · next after advanced => exact (candidates_remake after tree).trans (kept advanced)
  · next after instruction _ advanced => exact kept advanced

theorem candidates_handle (session : LiveSession) (rests : session.schedule.Rests)
    (tree : FileTree) (change : Change) :
    (session.handle tree change).2.candidates =
      session.candidates.merge (Candidate.ofFiles tree (change.reads tree session)).candidates := by
  simp only [handle, advance, session.schedule.noteChange_of_rests rests]
  rw [candidates_cycle, candidates_gather, Change.reads_work]
  cases change <;> rfl

end LiveSession

namespace DevState

open LiveSession

variable {state : DevState} {path : Path} {places : ProjectPlaces} {generator : Generator}

def reads (state : DevState) (step : DevStep) : List Path :=
  match state.change? step with
  | some change => change.reads state.tree state.session
  | none => []

def readings (state : DevState) : List DevStep → List Path
  | [] => []
  | step :: steps => state.reads step ++ (state.perform step).readings steps

theorem candidates_perform (settled : state.session.Settled) (step : DevStep) :
    (state.perform step).session.candidates =
      state.session.candidates.merge
        (Candidate.ofFiles state.tree (state.reads step)).candidates := by
  cases means : state.change? step with
  | none =>
    rw [perform_of_no_change means, reads, means]
    exact (CandidatePool.merge_nil _).symm
  | some change =>
    rw [reads, means]
    cases step with
    | files tree => simp [change?] at means
    | request entry =>
      obtain ⟨new, rfl⟩ : state.session.isNewEntry (state.session.entryOf entry) = true ∧
          Change.source (state.session.entryOf entry) = change := by
        simpa [change?] using means
      rw [perform, request]
      simp only [new, if_true]
      exact candidates_handle { state.session with
        entries := state.session.entries ++ [state.session.entryOf entry] } settled.rests state.tree _
    | notify path =>
      have meaning : state.session.meaningOf state.tree path = some change := means
      rw [perform, notify, meaning]
      exact candidates_handle state.session settled.rests state.tree change

/-- The session knows all that a file says now. -/
def Knows (state : DevState) (path : Path) : Prop :=
  ∀ tokens, Candidate.ofFile state.tree path = .ok tokens →
    ∀ token ∈ tokens, token ∈ state.session.candidates.items

theorem tree_perform {step : DevStep} (same : ∀ tree, step ≠ .files tree) :
    (state.perform step).tree = state.tree := by
  cases step with
  | files tree => exact absurd rfl (same tree)
  | request entry => simp only [perform]
  | notify path => simp only [perform]

theorem mem_candidates_ofFiles {tree : FileTree} {paths : List Path} {tokens : List String}
    {token : String} (member : path ∈ paths) (isFile : Candidate.ofFile tree path = .ok tokens)
    (isToken : token ∈ tokens) : token ∈ (Candidate.ofFiles tree paths).candidates := by
  simp only [Candidate.ofFiles, Ordered.mem_ofList, List.mem_flatMap, List.mem_map]
  exact ⟨.ok tokens, ⟨path, member, isFile⟩, isToken⟩

theorem knows_of_mem_reads (settled : state.session.Settled) {step : DevStep}
    (member : path ∈ state.reads step) : (state.perform step).Knows path := by
  intro tokens isFile token isToken
  have still : ∀ tree, step ≠ .files tree := by
    rintro tree rfl
    cases member
  rw [tree_perform still] at isFile
  rw [candidates_perform settled, CandidatePool.mem_merge]
  exact .inl (mem_candidates_ofFiles member isFile isToken)

theorem Knows.perform (knows : state.Knows path) (settled : state.session.Settled) {step : DevStep}
    (same : Candidate.ofFile (state.perform step).tree path = Candidate.ofFile state.tree path) :
    (state.perform step).Knows path := by
  intro tokens isFile token isToken
  rw [candidates_perform settled, CandidatePool.mem_merge]
  exact .inr (knows tokens (same ▸ isFile) token isToken)

end DevState

end UtilityCss
