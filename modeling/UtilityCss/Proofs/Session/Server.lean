import UtilityCss.Proofs.Schedule.Cycles
import UtilityCss.Proofs.Session.Requests
import UtilityCss.Session.Server

set_option autoImplicit false

namespace UtilityCss

namespace LiveSession

-- What holds of a session at all times, also while a stage runs.
structure Sound (session : LiveSession) : Prop where
  silent : session.delivery = .none
  keeps : session.KeepsTheme
  within : ∀ artifact, session.artifact = some artifact →
    artifact.themeRevision ≤ session.themeRevision ∧
      artifact.candidatesRevision ≤ session.candidates.revision
  current : ∀ artifact, session.artifact = some artifact →
    artifact.themeRevision = session.themeRevision →
    artifact.candidatesRevision = session.candidates.revision →
      session.rendering = some (.ok artifact)

def Fresh (session : LiveSession) : Prop :=
  ∀ artifact, session.rendering = some (.ok artifact) → session.artifact = some artifact

variable {session ended : LiveSession} {tree : FileTree} {work : Workload}

theorem sound_fresh (places : ProjectPlaces) (generator : Generator) :
    (fresh .dev places generator .none).Sound where
  silent := rfl
  keeps := by simp [KeepsTheme, fresh]
  within := by simp [fresh]
  current := by simp [fresh]

theorem Sound.with (sound : session.Sound) (schedule : Schedule) (entries : List Path) :
    Sound { session with schedule := schedule, entries := entries } :=
  ⟨sound.silent, sound.keeps, sound.within, sound.current⟩

structure Gathers (tree : FileTree) (work : Workload) (before after : LiveSession) : Prop where
  places : after.places = before.places
  generator : after.generator = before.generator
  delivery : after.delivery = before.delivery
  entries : after.entries = before.entries
  schedule : after.schedule = before.schedule
  artifact : after.artifact = before.artifact
  inputs : after.inputs = (before.afterLoad (work.load? tree before.places)).inputs
  themeRevision :
    after.themeRevision = (before.afterLoad (work.load? tree before.places)).themeRevision
  keeps : before.KeepsTheme → after.KeepsTheme
  candidates : after.candidates =
    before.candidates.merge (Candidate.ofFiles tree (work.reads tree before)).candidates

theorem gather_spec (session : LiveSession) (tree : FileTree) (work : Workload) :
    Gathers tree work session (session.gather tree work).1 ∧
      (session.gather tree work).2 =
        session.candidates.grows (Candidate.ofFiles tree (work.reads tree session)).candidates := by
  obtain ⟨kept, gathered⟩ := gather_eq session tree work
  have loading (keeps : session.KeepsTheme) :=
    keepsTheme_afterLoad keeps (work.load? tree session.places)
  have load := session.afterLoad_eq session.schedule (work.load? tree session.places)
  rw [gathered, load]
  exact ⟨⟨rfl, rfl, rfl, rfl, rfl, rfl, rfl, rfl, loading, rfl⟩, rfl⟩

namespace Gathers

variable {before after : LiveSession}

theorem themeRevision_le (gathers : Gathers tree work before after) :
    before.themeRevision ≤ after.themeRevision :=
  gathers.themeRevision ▸ themeRevision_le_afterLoad _

theorem candidates_le (gathers : Gathers tree work before after) :
    before.candidates.revision ≤ after.candidates.revision :=
  gathers.candidates ▸ before.candidates.revision_le_merge _

-- An extraction that brings no new revision leaves what an artifact is made from.
theorem rendering_eq (gathers : Gathers tree work before after)
    (theme : after.themeRevision = before.themeRevision)
    (candidates : after.candidates.revision = before.candidates.revision) :
    after.rendering = before.rendering := by
  have inputs : after.inputs = before.inputs := by
    rw [gathers.inputs, inputs_afterLoad_of_same _ (gathers.themeRevision ▸ theme)]
  have pool : after.candidates = before.candidates := by
    rw [gathers.candidates]
    exact before.candidates.merge_of_same_revision _ (gathers.candidates ▸ candidates)
  simp only [rendering, inputs, pool, theme, gathers.generator]

theorem sound (gathers : Gathers tree work before after) (sound : before.Sound) : after.Sound where
  silent := gathers.delivery.trans sound.silent
  keeps := gathers.keeps sound.keeps
  within artifact kept := by
    have ⟨theme, candidates⟩ := sound.within artifact (gathers.artifact ▸ kept)
    exact ⟨theme.trans gathers.themeRevision_le, candidates.trans gathers.candidates_le⟩
  current artifact kept theme candidates := by
    rw [gathers.artifact] at kept
    have ⟨themeBound, candidatesBound⟩ := sound.within artifact kept
    have sameTheme := Nat.le_antisymm (theme ▸ themeBound) gathers.themeRevision_le
    have samePool := Nat.le_antisymm (candidates ▸ candidatesBound) gathers.candidates_le
    rw [gathers.rendering_eq sameTheme samePool]
    exact sound.current artifact kept (theme.trans sameTheme) (candidates.trans samePool)

theorem fresh (gathers : Gathers tree work before after) (fresh : before.Fresh)
    (reloads : work.reloadTheme = false)
    (still : before.candidates.grows (Candidate.ofFiles tree (work.reads tree before)).candidates =
      false) : after.Fresh := by
  have theme : after.themeRevision = before.themeRevision := by
    rw [gathers.themeRevision]
    simp [Workload.load?, reloads, afterLoad]
  have candidates : after.candidates.revision = before.candidates.revision := by
    simpa [← gathers.candidates, still] using
      (CandidatePool.grows_iff before.candidates
        (Candidate.ofFiles tree (work.reads tree before)).candidates).not
  intro artifact made
  rw [gathers.rendering_eq theme candidates] at made
  exact gathers.artifact.trans (fresh artifact made)

end Gathers

theorem Sound.remade_eq (sound : session.Sound) :
    session.remade = match session.rendering with
      | some (.ok artifact) => some artifact
      | _ => session.artifact := by
  rcases made : session.rendering with _ | (error | artifact)
  · simp [remade, made]
  · simp [remade, made]
  · simp only [remade, made]
    split_ifs with current
    · obtain ⟨other, kept, theme, candidates⟩ := isUpToDate_iff.1 current
      have same := made.symm.trans (sound.current other kept theme candidates)
      rw [kept, Except.ok.inj (Option.some.inj same)]
    · rfl

theorem Remakes.rendering {before after : LiveSession} (remakes : before.Remakes after) :
    after.rendering = before.rendering := by
  obtain ⟨theme, published, kept, rfl⟩ := remakes.changed
  rfl

theorem Remakes.artifact {before after : LiveSession} (remakes : before.Remakes after)
    (sound : before.Sound) : after.artifact = match after.rendering with
      | some (.ok artifact) => some artifact
      | _ => before.artifact := by
  rw [remakes.rendering, ← sound.remade_eq]
  obtain ⟨theme, published, kept, rfl⟩ := remakes.changed
  rfl

theorem Remakes.fresh {before after : LiveSession} (remakes : before.Remakes after)
    (sound : before.Sound) : after.Fresh := by
  intro artifact made
  rw [remakes.artifact sound, made]

theorem Remakes.sound {before after : LiveSession} (remakes : before.Remakes after)
    (sound : before.Sound) : after.Sound := by
  have artifact := remakes.artifact sound
  have rendered := remakes.rendering
  have keeps := remakes.keeps
  obtain ⟨theme, published, noted, rfl⟩ := remakes.changed
  refine ⟨sound.silent, keeps, fun other kept => ?_, fun other kept sameTheme samePool => ?_⟩
  · rw [artifact] at kept
    split at kept
    · next made =>
      obtain rfl := Option.some.inj kept
      have ⟨first, second⟩ := revisions_of_rendering made
      exact ⟨Nat.le_of_eq first, Nat.le_of_eq second⟩
    · exact sound.within other kept
  · rw [artifact] at kept
    split at kept
    · next made =>
      obtain rfl := Option.some.inj kept
      exact made
    · exact rendered.trans (sound.current other kept sameTheme samePool)

theorem schedule_of_endAtOnce (ends : DevServer.endAtOnce? session = some ended) :
    ended.schedule = session.schedule := by
  unfold DevServer.endAtOnce? at ends
  split at ends
  · obtain rfl := Option.some.inj ends
    rfl
  · split_ifs at ends
    obtain rfl := Option.some.inj ends
    rfl

theorem remake_of_endAtOnce (ends : DevServer.endAtOnce? session = some ended) (tree : FileTree) :
    session.remake tree = (tree, ended) := by
  unfold DevServer.endAtOnce? at ends
  split at ends
  · next missing => simpa [remake, missing] using ends
  · next inputs loaded =>
    split_ifs at ends with current
    simpa [remake, loaded, current] using ends

end LiveSession

def Schedule.generates (c : Schedule) : Schedule :=
  { c with stage := some .generating, generations := c.generations + 1 }

structure Schedule.Quiet (c : Schedule) : Prop where
  rerun : c.rerun = false
  paths : c.pendingPaths = []
  theme : c.pendingTheme = false

instance (c : Schedule) : Decidable c.Quiet :=
  decidable_of_iff (c.rerun = false ∧ c.pendingPaths = [] ∧ c.pendingTheme = false)
    ⟨fun ⟨rerun, paths, theme⟩ => ⟨rerun, paths, theme⟩,
      fun quiet => ⟨quiet.rerun, quiet.paths, quiet.theme⟩⟩

theorem Schedule.closeCycle_cases (c : Schedule) :
    (c.closeCycle.2 = .settle ∧ c.closeCycle.1.Rests ∧ c.Quiet) ∨
      (c.closeCycle.2 = .extract ⟨c.pendingPaths, c.pendingTheme⟩ ∧
        c.closeCycle.1.stage = some .extracting ∧
          c.closeCycle.1.themeChanged = c.pendingTheme ∧ c.closeCycle.1.Quiet ∧ ¬ c.Quiet) := by
  unfold closeCycle
  dsimp only
  split_ifs with waits
  · refine .inr ⟨rfl, rfl, rfl, ⟨rfl, rfl, rfl⟩, fun quiet => ?_⟩
    simp [quiet.rerun, quiet.paths, quiet.theme] at waits
  · simp only [Bool.or_eq_true, not_or, Bool.not_eq_true, Bool.not_eq_false',
      List.isEmpty_iff] at waits
    obtain ⟨⟨rerun, paths⟩, theme⟩ := waits
    exact .inl ⟨rfl, ⟨rfl, paths, theme⟩, rerun, paths, theme⟩

namespace DevServer

open LiveSession

variable {server : DevServer} {session : LiveSession} {waiting : List Path} {tree : FileTree}
  {change : Change}

-- How a cycle ends: the session settles and answers, or a cycle for what arrived meanwhile opens.
inductive Closes (session : LiveSession) (waiting : List Path) : DevServer × List Reply → Prop
  | settles (schedule : Schedule) (rests : schedule.Rests) (quiet : session.schedule.Quiet) :
      Closes session waiting (⟨{ session with schedule := schedule }, none, []⟩,
        waiting.map fun page => ⟨page, session.reply⟩)
  | reopens (schedule : Schedule) (stage : schedule.stage = some .extracting)
      (theme : schedule.themeChanged = session.schedule.pendingTheme)
      (quiet : schedule.Quiet) (waits : ¬ session.schedule.Quiet) :
      Closes session waiting (⟨{ session with schedule := schedule },
        some (.extraction ⟨session.schedule.pendingPaths, session.schedule.pendingTheme⟩),
        waiting⟩, [])

theorem closes (session : LiveSession) (waiting : List Path) :
    Closes session waiting (carryOut ⟨(session.advance Schedule.closeCycle).1, none, waiting⟩
      session.schedule.closeCycle.2) := by
  obtain ⟨instruction, rests, quiet⟩ | ⟨instruction, stage, theme, quiet, waits⟩ :=
    session.schedule.closeCycle_cases
  · rw [instruction]
    exact .settles _ rests quiet
  · rw [instruction]
    exact .reopens _ stage theme quiet waits

theorem take_of_rests (rests : server.session.schedule.Rests) (change : Change) :
    server.take change =
      (⟨{ server.session with schedule := server.session.schedule.opened change },
        some (.extraction change.work), server.waiting⟩, []) := by
  simp only [take, advance, LiveSession.advance, Schedule.noteChange_of_rests rests, carryOut]

theorem take_of_busy (busy : server.session.schedule.isIdle = false) (change : Change) :
    server.take change =
      ({ server with session := { server.session with
          schedule := { server.session.schedule.addChange change with rerun := true } } }, []) := by
  have still := (Schedule.isIdle_addChange server.session.schedule change).trans busy
  simp only [take, advance, LiveSession.advance, Schedule.noteChange, still, carryOut,
    Bool.false_eq_true, if_false]

def Follows (schedule : Schedule) : Option RunningStage → Prop
  | none => schedule.Rests
  | some (.extraction work) =>
    schedule.stage = some .extracting ∧ schedule.themeChanged = work.reloadTheme
  | some .generation => schedule.stage = some .generating

-- What the end of a stage leads to.
inductive Finishes (server : DevServer) (tree : FileTree) : DevServer × List Reply → Prop
  | idle (running : server.running = none) : Finishes server tree (server, [])
  | quiet {result : DevServer × List Reply} (work : Workload)
      (running : server.running = some (.extraction work))
      (reloads : work.reloadTheme = false) (still : (server.session.gather tree work).2 = false)
      (closes : Closes (server.session.gather tree work).1 server.waiting result) :
      Finishes server tree result
  | generates (work : Workload) (running : server.running = some (.extraction work)) :
      Finishes server tree (⟨{ (server.session.gather tree work).1 with
        schedule := server.session.schedule.generates }, some .generation, server.waiting⟩, [])
  | skips {result : DevServer × List Reply} (work : Workload)
      (running : server.running = some (.extraction work))
      (closes : Closes (remake { (server.session.gather tree work).1 with
        schedule := server.session.schedule.generates } tree).2 server.waiting result) :
      Finishes server tree result
  | generated {result : DevServer × List Reply} (running : server.running = some .generation)
      (closes : Closes (server.session.remake tree).2 server.waiting result) :
      Finishes server tree result

theorem advance_of_closeCycle {step : Schedule → Schedule × Instruction}
    (ends : step session.schedule = session.schedule.closeCycle) :
    Closes session waiting (advance ⟨session, none, waiting⟩ step) := by
  have closes := closes session waiting
  simp only [advance, LiveSession.advance, ends] at closes ⊢
  obtain ⟨instruction, -⟩ | ⟨instruction, -⟩ := session.schedule.closeCycle_cases
  · simpa only [instruction] using closes
  · simpa only [instruction] using closes

theorem finishes (follows : Follows server.session.schedule server.running)
    (sound : server.session.Sound) (tree : FileTree) :
    Finishes server tree (server.finish tree) := by
  obtain none | ⟨stage, running⟩ := Option.eq_none_or_eq_some server.running
  · simp only [finish, none]
    exact .idle none
  rw [running] at follows
  cases stage with
  | extraction work =>
    obtain ⟨stage, theme⟩ := follows
    obtain ⟨gathers, -⟩ := gather_spec server.session tree work
    have schedule := gathers.schedule
    simp only [finish, running]
    generalize grew : (server.session.gather tree work).2 = grows
    cases due : grows || work.reloadTheme with
    | false =>
      obtain ⟨still, reloads⟩ : grows = false ∧ work.reloadTheme = false := by simpa using due
      refine .quiet work running reloads (grew.trans still) (advance_of_closeCycle ?_)
      simp [Schedule.noteExtracted, schedule, stage, theme, due]
    | true =>
      have generating : server.session.schedule.noteExtracted grows =
          (server.session.schedule.generates, .generate) := by
        simp [Schedule.noteExtracted, Schedule.generates, stage, theme, due]
      simp only [advance, LiveSession.advance, schedule, generating]
      split
      · exact .generates work running
      · next ended ends =>
        have same : ended.schedule.noteGenerated = ended.schedule.closeCycle := by
          rw [Schedule.noteGenerated, schedule_of_endAtOnce ends]
          exact if_neg (by simp [Schedule.generates])
        refine .skips work running ?_
        rw [remake_of_endAtOnce ends tree, same]
        exact closes ended server.waiting
  | generation =>
    obtain ⟨after, made, remakes⟩ :=
      remake_spec server.session tree sound.silent sound.keeps
    refine .generated running ?_
    simp only [finish, running, made]
    refine advance_of_closeCycle ?_
    obtain ⟨theme, published, kept, rfl⟩ := remakes.changed
    exact if_neg (not_not.2 follows)

structure Steady (server : DevServer) : Prop where
  sound : server.session.Sound
  follows : Follows server.session.schedule server.running
  fresh : server.running ≠ some .generation → server.session.Fresh

theorem start_eq (places : ProjectPlaces) (generator : Generator) :
    start places generator =
      ⟨{ fresh .dev places generator .none with
          schedule := Schedule.idle.opened (.theme places.input) },
        some (.extraction ⟨[], true⟩), []⟩ := rfl

theorem steady_start (places : ProjectPlaces) (generator : Generator) :
    (start places generator).Steady := by
  rw [start_eq]
  refine ⟨(sound_fresh places generator).with _ [], ⟨rfl, rfl⟩, ?_⟩
  intro _ artifact made
  cases made

theorem Steady.with (steady : server.Steady) (entries waiting : List Path) :
    Steady { server with
      session := { server.session with entries := entries }, waiting := waiting } :=
  ⟨steady.sound.with _ entries, steady.follows, steady.fresh⟩

theorem isIdle_iff (follows : Follows server.session.schedule server.running) :
    server.session.schedule.isIdle = true ↔ server.running = none := by
  unfold Follows at follows
  split at follows
  · next none => simp [Schedule.isIdle, follows.stage, none]
  · next work running => simp [Schedule.isIdle, follows.1, running]
  · next running => simp [Schedule.isIdle, follows, running]

theorem Steady.take (steady : server.Steady) (change : Change) :
    (server.take change).1.Steady ∧ (server.take change).1.running ≠ none ∧
      (server.take change).2 = [] := by
  have idle := isIdle_iff steady.follows
  obtain none | ⟨stage, running⟩ := Option.eq_none_or_eq_some server.running
  · have rests : server.session.schedule.Rests := by simpa [none, Follows] using steady.follows
    rw [take_of_rests rests]
    refine ⟨⟨steady.sound.with _ server.session.entries, ⟨rfl, ?_⟩, fun _ => ?_⟩, by simp, rfl⟩
    · cases change <;> rfl
    · exact steady.fresh (by simp [none])
  · rw [take_of_busy (by simpa [running] using idle.not)]
    refine ⟨⟨steady.sound.with _ server.session.entries, ?_, steady.fresh⟩, by simp [running], rfl⟩
    have follows := steady.follows
    simp only [running] at follows ⊢
    cases stage with
    | extraction work => cases change <;> exact follows
    | generation => cases change <;> exact follows

theorem Closes.steady {result : DevServer × List Reply} (closes : Closes session waiting result)
    (sound : session.Sound) (fresh : session.Fresh) : result.1.Steady := by
  cases closes with
  | settles schedule rests _ => exact ⟨sound.with schedule session.entries, rests, fun _ => fresh⟩
  | reopens schedule stage theme _ _ =>
    exact ⟨sound.with schedule session.entries, ⟨stage, theme⟩, fun _ => fresh⟩

theorem steady_of_remake {result : DevServer × List Reply} (sound : session.Sound)
    (closes : Closes (session.remake tree).2 waiting result) : result.1.Steady := by
  obtain ⟨after, made, remakes⟩ := remake_spec session tree sound.silent sound.keeps
  rw [made] at closes
  exact closes.steady (remakes.sound sound) (remakes.fresh sound)

theorem Steady.finish (steady : server.Steady) (tree : FileTree) :
    (server.finish tree).1.Steady := by
  have finishes := finishes steady.follows steady.sound tree
  generalize server.finish tree = result at finishes
  cases finishes with
  | idle running => exact steady
  | quiet work running reloads still closes =>
    obtain ⟨gathers, grew⟩ := gather_spec server.session tree work
    have fresh := steady.fresh (by simp [running])
    exact closes.steady (gathers.sound steady.sound)
      (gathers.fresh fresh reloads (grew.symm.trans still))
  | generates work running =>
    obtain ⟨gathers, -⟩ := gather_spec server.session tree work
    exact ⟨(gathers.sound steady.sound).with _ _, rfl, by simp⟩
  | skips work running closes =>
    obtain ⟨gathers, -⟩ := gather_spec server.session tree work
    exact steady_of_remake ((gathers.sound steady.sound).with _ _) closes
  | generated running closes => exact steady_of_remake steady.sound closes

end DevServer

end UtilityCss
