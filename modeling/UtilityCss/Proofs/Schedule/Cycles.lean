import UtilityCss.Proofs.Schedule.Delivery

set_option autoImplicit false

namespace UtilityCss

/-- The stage whose end a call reports. -/
def Call.stage? : Call → Option Stage
  | .change _ => none
  | .extracted _ => some .extracting
  | .generated => some .generating

def Instruction.stageAfter (before : Option Stage) : Instruction → Option Stage
  | .extract _ => some .extracting
  | .generate => some .generating
  | .settle => none
  | .wait => before

/-- The stage that runs behind a trace: the last one that an instruction started, if nothing settled
since. -/
def running (trace : List (Call × Instruction)) : Option Stage :=
  trace.foldl (fun stage entry => entry.2.stageAfter stage) none

def generationsOf (trace : List (Call × Instruction)) : Nat :=
  trace.countP fun entry => entry.2 = .generate

section Append

variable (trace : List (Call × Instruction)) (call : Call) (instruction : Instruction)

theorem running_append :
    running (trace ++ [(call, instruction)]) = instruction.stageAfter (running trace) := by
  simp [running]

theorem generationsOf_append : generationsOf (trace ++ [(call, instruction)]) =
    generationsOf trace + if instruction = .generate then 1 else 0 := by
  simp [generationsOf, List.countP_append, List.countP_singleton]

theorem works_append :
    works (trace ++ [(call, instruction)]) = works trace ++ instruction.work?.toList := by
  cases ordered : instruction.work? <;> simp [works, ordered]

theorem unsent_append (waiting : List Change) (more : List (Call × Instruction)) :
    unsent waiting (trace ++ more) = unsent (unsent waiting trace) more := by
  induction trace generalizing waiting with
  | nil => rfl
  | cons entry rest ih =>
    obtain ⟨first, answer⟩ := entry
    cases ordered : answer.work? <;> simp [unsent, ordered, ih]

end Append

namespace Schedule

variable {c : Schedule} {trace : List (Call × Instruction)} {call : Call}

theorem trace_append (c : Schedule) (calls more : List Call) :
    c.trace (calls ++ more) = c.trace calls ++ (c.after calls).trace more := by
  induction calls generalizing c with
  | nil => rfl
  | cons call calls ih => simp [Schedule.trace, ih, after]

theorem after_append (c : Schedule) (calls more : List Call) :
    c.after (calls ++ more) = (c.after calls).after more := by
  simp [after, List.foldl_append]

def Completes (c : Schedule) : Call → Prop
  | .change _ => False
  | .extracted grew => c.stage = some .extracting ∧ (grew || c.themeChanged) = false
  | .generated => c.stage = some .generating

inductive Responds (c : Schedule) : Call → Schedule × Instruction → Prop
  | opened (change : Change) (idle : c.isIdle = true) :
      c.Responds (.change change) (c.addChange change).openCycle
  | queued (change : Change) (busy : c.isIdle = false) :
      c.Responds (.change change) ({ c.addChange change with rerun := true }, .wait)
  | stray {call : Call} {stage : Stage} (reported : call.stage? = some stage)
      (other : c.stage ≠ some stage) : c.Responds call (c, .wait)
  | generated (grew : Bool) (extracting : c.stage = some .extracting)
      (due : (grew || c.themeChanged) = true) :
      c.Responds (.extracted grew)
        ({ c with stage := some .generating, generations := c.generations + 1 }, .generate)
  | closed {call : Call} (completes : c.Completes call) : c.Responds call c.closeCycle

theorem isIdle_addChange (c : Schedule) (change : Change) :
    (c.addChange change).isIdle = c.isIdle := by cases change <;> rfl

theorem responds (c : Schedule) (call : Call) : c.Responds call (c.respond call) := by
  cases call with
  | change change =>
    rw [respond, noteChange]
    split_ifs with still
    · exact .opened change (isIdle_addChange c change ▸ still)
    · exact .queued change (by simpa [isIdle_addChange] using still)
  | extracted grew =>
    rw [respond, noteExtracted]
    split_ifs with other due
    · exact .stray rfl other
    · exact .generated grew (not_not.1 other) due
    · exact .closed ⟨not_not.1 other, by simpa using due⟩
  | generated =>
    rw [respond, noteGenerated]
    split_ifs with other
    · exact .stray rfl other
    · exact .closed (not_not.1 other)

structure Accounts (c : Schedule) (trace : List (Call × Instruction)) : Prop where
  stage : c.stage = running trace
  extractions : (works trace).length = c.cycles + if c.isIdle then 0 else 1
  generations : generationsOf trace = c.generations
  holds : c.Holds (unsent [] trace)
  rerun : c.rerun = true ↔ unsent [] trace ≠ []
  theme : c.isIdle = false →
    ∃ work, (works trace).getLast? = some work ∧ c.themeChanged = work.reloadTheme

theorem accounts_idle : idle.Accounts [] where
  stage := rfl
  extractions := rfl
  generations := rfl
  holds := holds_idle
  rerun := by simp [idle, unsent]
  theme busy := by simp [isIdle, idle] at busy

theorem not_idle_of_stage {stage : Stage} (runs : c.stage = some stage) : c.isIdle = false := by
  simp [isIdle, runs]

theorem busy_of_completes (completes : c.Completes call) : c.isIdle = false := by
  cases call with
  | change change => exact completes.elim
  | extracted grew => exact not_idle_of_stage completes.1
  | generated => exact not_idle_of_stage completes

theorem changes_of_completes (completes : c.Completes call) : call.changes = [] := by
  cases call with
  | change change => exact completes.elim
  | extracted grew => rfl
  | generated => rfl

theorem changes_of_stage {stage : Stage} (reported : call.stage? = some stage) :
    call.changes = [] := by
  cases call with
  | change change => cases reported
  | extracted grew => rfl
  | generated => rfl

theorem openCycle_accounts {opened : Schedule}
    (extractions : (works trace).length = opened.cycles)
    (generations : generationsOf trace = opened.generations) (call : Call) :
    opened.openCycle.1.Accounts (trace ++ [(call, opened.openCycle.2)]) := by
  have sent : unsent [] (trace ++ [(call, opened.openCycle.2)]) = [] := by
    rw [unsent_append]
    rfl
  refine ⟨?_, ?_, ?_, ?_, ?_, fun _ => ⟨⟨opened.pendingPaths, opened.pendingTheme⟩, ?_, rfl⟩⟩
  · rw [running_append]
    rfl
  · rw [works_append, List.length_append, extractions]
    rfl
  · rw [generationsOf_append, generations]
    rfl
  · rw [sent]
    exact ⟨rfl, rfl, fun _ => rfl⟩
  · rw [sent]
    simp [openCycle]
  · rw [works_append]
    exact List.getLast?_concat

theorem Accounts.closeCycle_eq (accounts : c.Accounts trace) :
    c.closeCycle =
      if unsent [] trace = [] then
        ({ c with cycles := c.cycles + 1, themeChanged := false, stage := none }, .settle)
      else openCycle { c with cycles := c.cycles + 1, themeChanged := false } := by
  unfold closeCycle
  dsimp only
  by_cases sent : unsent [] trace = []
  · have rerun : c.rerun = false := by simpa [sent] using accounts.rerun
    have holds := accounts.holds
    rw [sent] at holds
    rw [if_pos sent, if_neg]
    simp [rerun, holds.paths, holds.theme, Path.sorted]
  · have rerun : c.rerun = true := accounts.rerun.2 sent
    rw [if_neg sent, if_pos (by simp [rerun])]

-- What waits is handled by every call alike, so the cases below are about the other fields.
theorem Accounts.holds_respond (accounts : c.Accounts trace) (call : Call) :
    (c.respond call).1.Holds (unsent [] (trace ++ [(call, (c.respond call).2)])) := by
  have handled := respond_handles accounts.holds call
  rw [unsent_append]
  unfold Handles at handled
  cases ordered : (c.respond call).2.work? with
  | some work =>
    rw [ordered] at handled
    simpa [unsent, ordered] using handled.2
  | none =>
    rw [ordered] at handled
    simpa [unsent, ordered] using handled

-- Within a cycle nothing changes but the stage, the generations and what waits.
theorem Accounts.within {later : Schedule} {instruction : Instruction}
    (accounts : c.Accounts trace)
    (holds : later.Holds (unsent [] (trace ++ [(call, instruction)])))
    (silent : instruction.work? = none)
    (stage : later.stage = instruction.stageAfter c.stage) (stays : later.isIdle = c.isIdle)
    (cycles : later.cycles = c.cycles)
    (generations : later.generations = c.generations + if instruction = .generate then 1 else 0)
    (theme : later.themeChanged = c.themeChanged)
    (rerun : later.rerun = true ↔ unsent [] trace ++ call.changes ≠ []) :
    later.Accounts (trace ++ [(call, instruction)]) where
  stage := by rw [stage, running_append, accounts.stage]
  extractions := by simp [works_append, silent, accounts.extractions, stays, cycles]
  generations := by rw [generationsOf_append, accounts.generations, generations]
  holds := holds
  rerun := by simp only [rerun, unsent_append, unsent, silent]
  theme busy := by
    rw [works_append, silent, Option.toList_none, List.append_nil, theme]
    exact accounts.theme (stays ▸ busy)

theorem Accounts.closeCycle_answer (accounts : c.Accounts trace) :
    if unsent [] trace = [] then c.closeCycle.2 = .settle
    else ∃ work, c.closeCycle.2 = .extract work ∧ work.Covers (unsent [] trace) := by
  have handled := closeCycle_handles accounts.holds
  rw [accounts.closeCycle_eq] at handled ⊢
  split_ifs at handled ⊢ with sent
  · rfl
  · exact ⟨_, rfl, handled.1⟩

theorem Accounts.respond (accounts : c.Accounts trace) (call : Call) :
    (c.respond call).1.Accounts (trace ++ [(call, (c.respond call).2)]) := by
  have response := c.responds call
  have holds := accounts.holds_respond call
  generalize c.respond call = answer at response holds
  cases response with
  | opened change still =>
    have extractions := accounts.extractions
    rw [if_pos still] at extractions
    apply openCycle_accounts
    · rw [extractions]
      cases change <;> rfl
    · rw [accounts.generations]
      cases change <;> rfl
  | queued change busy =>
    refine accounts.within holds rfl ?_ ?_ ?_ ?_ ?_ (by simp [Call.changes]) <;>
      cases change <;> rfl
  | stray reported other =>
    apply accounts.within holds rfl rfl rfl rfl rfl rfl
    rw [changes_of_stage reported, List.append_nil]
    exact accounts.rerun
  | generated grew extracting due =>
    apply accounts.within holds rfl rfl _ rfl rfl rfl
    · rw [Call.changes, List.append_nil]
      exact accounts.rerun
    · simp [isIdle, extracting]
  | closed completes =>
    have extractions := accounts.extractions
    simp only [busy_of_completes completes, Bool.false_eq_true, if_false] at extractions
    rw [accounts.closeCycle_eq] at holds ⊢
    split_ifs at holds ⊢ with sent
    · refine ⟨?_, ?_, ?_, holds, ?_, fun busy => ?_⟩
      · rw [running_append]
        rfl
      · simp [works_append, Instruction.work?, extractions, isIdle]
      · simp [generationsOf_append, accounts.generations]
      · rw [unsent_append, sent]
        simpa [unsent, Instruction.work?, sent, changes_of_completes completes] using accounts.rerun
      · simp [isIdle] at busy
    · refine openCycle_accounts ?_ ?_ call
      · exact extractions
      · exact accounts.generations

theorem accounts_after (calls : List Call) : (idle.after calls).Accounts (idle.trace calls) := by
  induction calls using List.reverseRecOn with
  | nil => exact accounts_idle
  | append_singleton calls call ih =>
    rw [after_append, trace_append]
    exact ih.respond call

theorem state_eq_pendingRerun_iff :
    c.state = .pendingRerun ↔ c.isIdle = false ∧ c.rerun = true := by
  unfold state isIdle
  rcases c.stage with _ | ⟨_ | _⟩ <;> cases c.rerun <;> simp

theorem Accounts.state_iff (accounts : c.Accounts trace) :
    c.state = .pendingRerun ↔ unsent [] trace ≠ [] := by
  rw [state_eq_pendingRerun_iff, accounts.rerun, and_iff_right_iff_imp]
  intro waits
  by_contra still
  exact waits (accounts.holds.idle (by simpa using still))

theorem generate_iff (c : Schedule) (call : Call) :
    (c.respond call).2 = .generate ↔ ∃ grew, call = .extracted grew ∧
      c.stage = some .extracting ∧ (grew || c.themeChanged) = true := by
  have response := c.responds call
  generalize c.respond call = answer at response
  cases response with
  | opened change still => simp [openCycle]
  | queued change busy => simp
  | stray reported other =>
    simp only [reduceCtorEq, false_iff, not_exists]
    rintro grew ⟨rfl, extracting, -⟩
    exact other (extracting.trans reported)
  | generated grew extracting due => simpa [extracting] using due
  | closed completes =>
    have silent : c.closeCycle.2 ≠ .generate := by
      unfold closeCycle
      dsimp only
      split_ifs <;> simp [openCycle]
    simp only [silent, false_iff, not_exists]
    rintro grew ⟨rfl, -, due⟩
    exact Bool.false_ne_true (completes.2.symm.trans due)

theorem Accounts.generate_iff (accounts : c.Accounts trace) (call : Call) :
    (c.respond call).2 = .generate ↔ ∃ grew, call = .extracted grew ∧
      running trace = some .extracting ∧
        (grew = true ∨ ∃ work, (works trace).getLast? = some work ∧ work.reloadTheme = true) := by
  rw [Schedule.generate_iff, accounts.stage]
  refine exists_congr fun grew => and_congr_right fun _ => and_congr_right fun extracting => ?_
  obtain ⟨work, last, theme⟩ := accounts.theme (not_idle_of_stage (accounts.stage.trans extracting))
  simp [theme, last]

theorem respond_of_stray {stage : Stage} (reported : call.stage? = some stage)
    (other : c.stage ≠ some stage) : c.respond call = (c, .wait) := by
  cases call with
  | change change => cases reported
  | extracted grew =>
    obtain rfl := Option.some.inj reported
    exact if_pos other
  | generated =>
    obtain rfl := Option.some.inj reported
    exact if_pos other

theorem cycles_closeCycle (c : Schedule) : c.closeCycle.1.cycles = c.cycles + 1 := by
  unfold closeCycle
  dsimp only
  split_ifs <;> rfl

theorem respond_of_busy (busy : c.isIdle = false) (call : Call) :
    (c.Completes call ∧ c.respond call = c.closeCycle) ∨
      ((c.respond call).1.cycles = c.cycles ∧ (c.respond call).1.isIdle = false ∧
        (c.respond call).2.work? = none) := by
  have response := c.responds call
  generalize c.respond call = answer at response
  cases response with
  | opened change still => simp [busy] at still
  | queued change _ =>
    refine .inr ⟨?_, (isIdle_addChange c change).trans busy, rfl⟩
    cases change <;> rfl
  | stray reported other => exact .inr ⟨rfl, busy, rfl⟩
  | generated grew extracting due => exact .inr ⟨rfl, rfl, rfl⟩
  | closed completes => exact .inl ⟨completes, rfl⟩

theorem cycles_le_respond (c : Schedule) (call : Call) : c.cycles ≤ (c.respond call).1.cycles := by
  cases busy : c.isIdle with
  | true =>
    have response := c.responds call
    generalize c.respond call = answer at response
    cases response with
    | opened change still => cases change <;> exact Nat.le_refl _
    | queued change _ => cases change <;> exact Nat.le_refl _
    | stray reported other => exact Nat.le_refl _
    | generated grew extracting due => exact Nat.le_refl _
    | closed completes => exact (cycles_closeCycle c).symm ▸ Nat.le_succ _
  | false =>
    rcases respond_of_busy busy call with ⟨-, closes⟩ | ⟨same, -⟩
    · rw [closes, cycles_closeCycle]
      exact Nat.le_succ _
    · exact Nat.le_of_eq same.symm

theorem cycles_le_after (c : Schedule) (calls : List Call) : c.cycles ≤ (c.after calls).cycles := by
  induction calls generalizing c with
  | nil => exact Nat.le_refl _
  | cons call calls ih => exact Nat.le_trans (cycles_le_respond c call) (ih _)

theorem works_of_same_cycle {calls : List Call} (busy : c.isIdle = false)
    (same : (c.after calls).cycles = c.cycles) :
    works (c.trace calls) = [] ∧ (c.after calls).isIdle = false ∧
      ∀ waiting, unsent waiting (c.trace calls) = waiting ++ calls.flatMap Call.changes := by
  induction calls generalizing c with
  | nil => exact ⟨rfl, busy, by simp [Schedule.trace, unsent]⟩
  | cons call calls ih =>
    have bound := cycles_le_after (c.respond call).1 calls
    rcases respond_of_busy busy call with ⟨-, closes⟩ | ⟨cycles, still, silent⟩
    · -- A cycle that was completed stays counted.
      rw [closes, cycles_closeCycle, ← closes] at bound
      exact absurd same (by simpa [after] using Nat.ne_of_gt bound)
    · obtain ⟨none, later, sent⟩ := ih still (by simpa [after, cycles] using same)
      refine ⟨?_, later, fun waiting => ?_⟩
      · simpa [Schedule.trace, works, silent] using none
      · simp [Schedule.trace, unsent, silent, sent]

theorem completes_of_next_cycle {last : Call} (busy : c.isIdle = false)
    (next : (c.respond last).1.cycles = c.cycles + 1) :
    c.Completes last ∧ c.respond last = c.closeCycle := by
  rcases respond_of_busy busy last with closes | ⟨same, -⟩
  · exact closes
  · omega

/-- Every cycle opens with one extraction, a generation answers an extraction that found candidates
or was opened by a theme change, and all changes that arrive within a cycle lead to one more
extraction. -/
theorem cycles_account_for_calls (calls : List Call) :
    (works (idle.trace calls)).length =
        (idle.after calls).cycles + (if (idle.after calls).isIdle then 0 else 1) ∧
      generationsOf (idle.trace calls) = (idle.after calls).generations ∧
      (idle.after calls).stage = running (idle.trace calls) ∧
      ((idle.after calls).state = .pendingRerun ↔ unsent [] (idle.trace calls) ≠ []) ∧
      ((idle.after calls).isIdle = true →
        (idle.after calls).pendingPaths = [] ∧ (idle.after calls).pendingTheme = false) ∧
      (∀ call, ((idle.after calls).respond call).2 = .generate ↔ ∃ grew, call = .extracted grew ∧
        running (idle.trace calls) = some .extracting ∧
          (grew = true ∨ ∃ work, (works (idle.trace calls)).getLast? = some work ∧
            work.reloadTheme = true)) ∧
      (∀ call stage, call.stage? = some stage → running (idle.trace calls) ≠ some stage →
        (idle.after calls).respond call = (idle.after calls, .wait)) ∧
      ∀ more last, (idle.after calls).isIdle = false →
        (idle.after (calls ++ more)).cycles = (idle.after calls).cycles →
        (idle.after (calls ++ more ++ [last])).cycles = (idle.after calls).cycles + 1 →
          works (idle.trace (calls ++ more)) = works (idle.trace calls) ∧
          if unsent [] (idle.trace calls) ++ more.flatMap Call.changes = [] then
            ((idle.after (calls ++ more)).respond last).2 = .settle
          else ∃ work, ((idle.after (calls ++ more)).respond last).2 = .extract work ∧
            work.Covers (unsent [] (idle.trace calls) ++ more.flatMap Call.changes) := by
  have accounts := accounts_after calls
  refine ⟨accounts.extractions, accounts.generations, accounts.stage, accounts.state_iff,
    fun still => ?_, accounts.generate_iff, fun call stage reported other => ?_,
    fun more last busy same next => ?_⟩
  · have holds := accounts.holds
    rw [holds.idle still] at holds
    exact ⟨holds.paths, holds.theme⟩
  · exact respond_of_stray reported (accounts.stage ▸ other)
  · rw [after_append] at same
    obtain ⟨none, later, sent⟩ := works_of_same_cycle busy same
    rw [← after_append] at same later
    rw [after_append, ← same] at next
    have waits := sent (unsent [] (idle.trace calls))
    rw [← unsent_append, ← trace_append] at waits
    obtain ⟨-, closes⟩ := completes_of_next_cycle later next
    have ended := accounts_after (calls ++ more)
    rw [closes, ← waits]
    refine ⟨by simpa [trace_append, works] using none, ?_⟩
    exact ended.closeCycle_answer

def firstCycle : List Call := [.change (.source ⟨"a"⟩), .extracted true]

def lateChanges : List Call :=
  [.change (.source ⟨"b"⟩), .extracted false, .change (.theme ⟨"site.css"⟩)]

theorem cycles_account_for_late_changes :
    (idle.after firstCycle).isIdle = false ∧
      (idle.after (firstCycle ++ lateChanges)).cycles = (idle.after firstCycle).cycles ∧
      (idle.after (firstCycle ++ lateChanges ++ [.generated])).cycles =
        (idle.after firstCycle).cycles + 1 ∧
      (idle.after (firstCycle ++ lateChanges)).state = .pendingRerun ∧
      ∃ work, ((idle.after (firstCycle ++ lateChanges)).respond .generated).2 = .extract work ∧
        work.Covers [.source ⟨"b"⟩, .theme ⟨"site.css"⟩] := by
  have busy : (idle.after firstCycle).isIdle = false := by decide +kernel
  have same : (idle.after (firstCycle ++ lateChanges)).cycles =
      (idle.after firstCycle).cycles := by decide +kernel
  have next : (idle.after (firstCycle ++ lateChanges ++ [.generated])).cycles =
      (idle.after firstCycle).cycles + 1 := by decide +kernel
  have waits : unsent [] (idle.trace firstCycle) = [] := by decide +kernel
  have answer := (cycles_account_for_calls firstCycle).2.2.2.2.2.2.2 lateChanges .generated
    busy same next
  rw [waits] at answer
  exact ⟨busy, same, next, by decide +kernel, answer.2⟩

end Schedule

end UtilityCss
