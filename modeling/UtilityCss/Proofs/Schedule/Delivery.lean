import UtilityCss.Proofs.Path.Order
import UtilityCss.Schedule

set_option autoImplicit false

namespace UtilityCss

inductive Call where
  | change (change : Change)
  | extracted (grew : Bool)
  | generated
  deriving DecidableEq, Repr

def Call.changes : Call → List Change
  | .change noted => [noted]
  | .extracted _ => []
  | .generated => []

def Change.source? : Change → Option Path
  | .source path => some path
  | .theme _ => none

def Change.isTheme : Change → Bool
  | .source _ => false
  | .theme _ => true

def Instruction.work? : Instruction → Option Workload
  | .extract work => some work
  | _ => none

namespace Schedule

def respond (c : Schedule) : Call → Schedule × Instruction
  | .change change => c.noteChange change
  | .extracted grew => c.noteExtracted grew
  | .generated => c.noteGenerated

def after (c : Schedule) (calls : List Call) : Schedule :=
  calls.foldl (fun c call => (c.respond call).1) c

def trace (c : Schedule) : List Call → List (Call × Instruction)
  | [] => []
  | call :: calls => (call, (c.respond call).2) :: (c.respond call).1.trace calls

end Schedule

def works (trace : List (Call × Instruction)) : List Workload := trace.filterMap (·.2.work?)

-- A batch ends with the call that an extraction answers, and takes the change of that call along.
/-- The changes of a trace, cut behind each extraction; `waiting` came before the trace. -/
def batches (waiting : List Change) : List (Call × Instruction) → List (List Change)
  | [] => []
  | (call, instruction) :: rest =>
    match instruction.work? with
    | some _ => (waiting ++ call.changes) :: batches [] rest
    | none => batches (waiting ++ call.changes) rest

/-- The changes behind the last extraction of a trace. -/
def unsent (waiting : List Change) : List (Call × Instruction) → List Change
  | [] => waiting
  | (call, instruction) :: rest =>
    match instruction.work? with
    | some _ => unsent [] rest
    | none => unsent (waiting ++ call.changes) rest

/-- A workload covers some changes: their paths in order, the first spelling of each, and whether
the theme is among them. -/
structure Workload.Covers (work : Workload) (changes : List Change) : Prop where
  increasing : work.paths.Pairwise fun p q => p.lt q ∧ ¬ p.same q
  paths : ∀ path, path ∈ work.paths ↔
    (changes.filterMap Change.source?).find? (·.same path) = some path
  reloadTheme : work.reloadTheme = true ↔ ∃ path, Change.theme path ∈ changes

namespace Schedule

structure Holds (c : Schedule) (waiting : List Change) : Prop where
  paths : c.pendingPaths = Path.sorted (waiting.filterMap Change.source?)
  theme : c.pendingTheme = waiting.any Change.isTheme
  idle : c.isIdle → waiting = []

theorem holds_idle : idle.Holds [] := ⟨rfl, rfl, fun _ => rfl⟩

variable {c : Schedule} {waiting : List Change}

theorem isTheme_iff {change : Change} : change.isTheme = true ↔ ∃ path, .theme path = change := by
  cases change <;> simp [Change.isTheme]

theorem covers_pending (paths : c.pendingPaths = Path.sorted (waiting.filterMap Change.source?))
    (theme : c.pendingTheme = waiting.any Change.isTheme) :
    Workload.Covers ⟨c.pendingPaths, c.pendingTheme⟩ waiting where
  increasing := by
    rw [paths]
    exact (Path.increasing_sorted _).imp fun less => ⟨less, Path.not_same_of_lt less⟩
  paths path := by rw [paths, Path.mem_sorted]
  reloadTheme := by
    simp only [theme, List.any_eq_true, isTheme_iff]
    exact ⟨fun ⟨_, member, path, same⟩ => ⟨path, same ▸ member⟩,
      fun ⟨path, member⟩ => ⟨_, member, path, rfl⟩⟩

def Handles (waiting : List Change) (answer : Schedule × Instruction) : Prop :=
  match answer.2.work? with
  | some work => work.Covers waiting ∧ answer.1.Holds []
  | none => answer.1.Holds waiting

theorem openCycle_handles
    (paths : c.pendingPaths = Path.sorted (waiting.filterMap Change.source?))
    (theme : c.pendingTheme = waiting.any Change.isTheme) : Handles waiting c.openCycle := by
  refine ⟨covers_pending paths theme, rfl, rfl, ?_⟩
  intro still
  simp [openCycle, isIdle] at still

theorem eq_nil_of_not_pending (holds : c.Holds waiting) (paths : c.pendingPaths = [])
    (theme : c.pendingTheme = false) : waiting = [] := by
  cases waiting with
  | nil => rfl
  | cons change rest =>
    cases change with
    | theme path => simp [holds.theme, Change.isTheme] at theme
    | source path =>
      -- The first path that was received is its own first spelling.
      have member : path ∈ c.pendingPaths := by
        rw [holds.paths, Path.mem_sorted]
        simp [Change.source?, Path.same_refl]
      simp [paths] at member

theorem closeCycle_handles (holds : c.Holds waiting) : Handles waiting c.closeCycle := by
  unfold closeCycle
  dsimp only
  split_ifs with rerun
  · exact openCycle_handles holds.paths holds.theme
  · -- The cycle ends without another one, so nothing may wait.
    simp only [Bool.or_eq_true, not_or, Bool.not_eq_true, Bool.not_eq_false',
      List.isEmpty_iff] at rerun
    have none := eq_nil_of_not_pending holds rerun.1.2 rerun.2
    exact ⟨holds.paths, holds.theme, fun _ => none⟩

theorem addChange_pending (holds : c.Holds waiting) (change : Change) :
    (c.addChange change).pendingPaths =
        Path.sorted ((waiting ++ [change]).filterMap Change.source?) ∧
      (c.addChange change).pendingTheme = (waiting ++ [change]).any Change.isTheme := by
  cases change with
  | source path =>
    simp [addChange, holds.paths, holds.theme, Change.source?, Change.isTheme,
      Path.sorted_append_singleton]
  | theme path =>
    simp [addChange, holds.paths, Change.isTheme, List.filterMap_cons, Change.source?]

theorem noteChange_handles (holds : c.Holds waiting) (change : Change) :
    Handles (waiting ++ [change]) (c.noteChange change) := by
  obtain ⟨paths, theme⟩ := addChange_pending holds change
  unfold noteChange
  dsimp only
  split_ifs with still
  · exact openCycle_handles paths theme
  · exact ⟨paths, theme, fun now => absurd now still⟩

theorem noteExtracted_handles (holds : c.Holds waiting) (grew : Bool) :
    Handles waiting (c.noteExtracted grew) := by
  unfold noteExtracted
  split_ifs
  · exact holds
  · exact ⟨holds.paths, holds.theme, fun still => by simp [isIdle] at still⟩
  · exact closeCycle_handles holds

theorem noteGenerated_handles (holds : c.Holds waiting) :
    Handles waiting c.noteGenerated := by
  unfold noteGenerated
  split_ifs
  · exact holds
  · exact closeCycle_handles holds

theorem respond_handles (holds : c.Holds waiting) (call : Call) :
    Handles (waiting ++ call.changes) (c.respond call) := by
  cases call with
  | change noted => exact noteChange_handles holds noted
  | extracted grew => simpa [Call.changes, respond] using noteExtracted_handles holds grew
  | generated => simpa [Call.changes, respond] using noteGenerated_handles holds

-- The run invariant, by induction on the calls: `waiting` is what the schedule holds before them.
theorem trace_covered (holds : c.Holds waiting) (calls : List Call) :
    List.Forall₂ Workload.Covers (works (c.trace calls)) (batches waiting (c.trace calls)) ∧
      (c.after calls).Holds (unsent waiting (c.trace calls)) := by
  induction calls generalizing c waiting with
  | nil => exact ⟨.nil, holds⟩
  | cons call calls ih =>
    have step := respond_handles holds call
    unfold Handles at step
    cases ordered : (c.respond call).2.work? with
    | some work =>
      rw [ordered] at step
      obtain ⟨rest, held⟩ := ih step.2
      simp only [trace, works, batches, unsent, ordered, List.filterMap_cons]
      exact ⟨.cons step.1 rest, held⟩
    | none =>
      rw [ordered] at step
      simp only [trace, works, batches, unsent, ordered, List.filterMap_cons]
      exact ih step

theorem batches_append_unsent (c : Schedule) (waiting : List Change) (calls : List Call) :
    (batches waiting (c.trace calls)).flatten ++ unsent waiting (c.trace calls) =
      waiting ++ calls.flatMap Call.changes := by
  induction calls generalizing c waiting with
  | nil => simp [trace, batches, unsent]
  | cons call calls ih =>
    cases ordered : (c.respond call).2.work? <;>
      simp [trace, batches, unsent, ordered, ih]

/-- However the calls are ordered, the extractions cover the changes batch by batch, every change is
in one batch or still waits, and none waits in an idle schedule. -/
theorem extractions_cover_changes (calls : List Call) :
    List.Forall₂ Workload.Covers (works (idle.trace calls)) (batches [] (idle.trace calls)) ∧
      (batches [] (idle.trace calls)).flatten ++ unsent [] (idle.trace calls) =
        calls.flatMap Call.changes ∧
      ((idle.after calls).isIdle →
        (batches [] (idle.trace calls)).flatten = calls.flatMap Call.changes) := by
  obtain ⟨covered, held⟩ := trace_covered holds_idle calls
  have partition := batches_append_unsent idle [] calls
  rw [List.nil_append] at partition
  refine ⟨covered, partition, ?_⟩
  intro still
  rw [← partition, held.idle still, List.append_nil]

def burst : List Call :=
  [.generated, .change (.source ⟨"b"⟩), .change (.source ⟨"a//x"⟩), .change (.source ⟨"a/x"⟩),
   .extracted true, .change (.theme ⟨"site.css"⟩), .generated, .extracted false, .generated]

theorem extractions_cover_burst :
    (idle.after burst).isIdle ∧
      (batches [] (idle.trace burst)).flatten = burst.flatMap Call.changes ∧
      works (idle.trace burst) = [⟨[⟨"b"⟩], false⟩, ⟨[⟨"a//x"⟩], true⟩] := by
  have still : (idle.after burst).isIdle := by decide +kernel
  exact ⟨still, (extractions_cover_changes burst).2.2 still, by decide +kernel⟩

end Schedule

end UtilityCss
