import UtilityCss.Proofs.Session.Replies

set_option autoImplicit false

namespace UtilityCss.DevServer

open LiveSession

variable {server : DevServer} {places : ProjectPlaces} {tree : FileTree}

-- What arrived while a stage ran takes one further cycle, and nothing else does.
def stagesLeft (server : DevServer) : Nat :=
  match server.running with
  | none => 0
  | some .generation => if server.session.schedule.Quiet then 1 else 3
  | some (.extraction _) => if server.session.schedule.Quiet then 2 else 4

theorem stagesLeft_eq_zero_iff : server.stagesLeft = 0 ↔ server.running = none := by
  unfold stagesLeft
  split
  · next none => simp [none]
  · next running => split_ifs <;> simp [running]
  · next work running => split_ifs <;> simp [running]

theorem stagesLeft_le : server.stagesLeft ≤ 4 := by
  unfold stagesLeft
  split
  · omega
  · split_ifs <;> omega
  · split_ifs <;> omega

theorem three_le_stagesLeft (busy : server.running ≠ none)
    (waits : ¬ server.session.schedule.Quiet) : 3 ≤ server.stagesLeft := by
  unfold stagesLeft
  split
  · next none => exact absurd none busy
  · simp [waits]
  · simp [waits]

theorem Steady.stagesLeft_finish (steady : server.Steady) (tree : FileTree) :
    (server.finish tree).1.stagesLeft ≤ server.stagesLeft - 1 := by
  by_cases idle : server.running = none
  · simp [DevServer.finish, idle, stagesLeft]
  obtain ⟨ended, ends, closes | ⟨⟨work, running⟩, equal⟩ | ⟨none, -⟩⟩ := steady.finish_ends tree
  · generalize server.finish tree = result at closes
    cases closes with
    | settles schedule rests quiet => simp [stagesLeft]
    | reopens schedule stage theme quiet waits =>
      have bound := three_le_stagesLeft idle (mt ends.quiet.2 waits)
      simp only [stagesLeft, quiet, if_true] at bound ⊢
      omega
  · rw [equal]
    simp only [stagesLeft, running, ends.quiet]
    split_ifs <;> omega
  · exact absurd none idle

-- Nothing but arrivals keeps a session running: it settles when at most four stages have ended.
theorem Steady.settles (steady : server.Steady) (trees : List FileTree)
    (enough : 4 ≤ trees.length) : (server.after (trees.map .finish)).running = none := by
  have bound :
      (server.after (trees.map .finish)).stagesLeft ≤ server.stagesLeft - trees.length := by
    clear enough
    induction trees generalizing server with
    | nil => exact Nat.le_refl _
    | cons tree trees ih =>
      have later := ih (steady.finish tree)
      have step := steady.stagesLeft_finish tree
      have same : server.after ((tree :: trees).map .finish) =
          (server.finish tree).1.after (trees.map .finish) := rfl
      rw [same, List.length_cons]
      omega
  have most : server.stagesLeft ≤ 4 := stagesLeft_le
  exact stagesLeft_eq_zero_iff.1 (by omega)

theorem entriesOf_finishes (trees : List FileTree) : entriesOf (trees.map .finish) = [] := by
  simp [entriesOf, List.flatMap_map, ServerEvent.entries]

theorem replies_after_settling (absolute : places.root.isAbsolute = true) (generator : Generator)
    (events : List ServerEvent) (trees : List FileTree) (enough : 4 ≤ trees.length) :
    ((start places generator).replies (events ++ trees.map .finish)).map Reply.page =
      (entriesOf events).map places.page := by
  have ⟨ordered, nobody⟩ := answered_after absolute generator (events ++ trees.map .finish)
  have settled := ((steady_start places generator).after events).settles trees enough
  rw [← after_append] at settled
  rwa [nobody settled, List.append_nil, entriesOf_append, entriesOf_finishes,
    List.append_nil] at ordered

theorem finish_of_idle (idle : server.running = none) (tree : FileTree) :
    server.finish tree = (server, []) := by
  simp only [finish, idle]

-- A change that no other one follows before the session settles is handled as by itself.
theorem take_undisturbed (steady : server.Steady) (idle : server.running = none) (tree : FileTree)
    (change : Change) :
    let first := (server.take change).1.finish tree
    (first.1.finish tree).1 = ⟨(server.session.handle tree change).2, none, []⟩ ∧
      first.2 ++ (first.1.finish tree).2 = server.waiting.map fun page =>
        ⟨page, (server.session.handle tree change).2.reply⟩ := by
  intro first
  have rests : server.session.schedule.Rests := by simpa [idle, Follows] using steady.follows
  have finished : first = finish ⟨{ server.session with
      schedule := server.session.schedule.opened change }, some (.extraction change.work),
      server.waiting⟩ tree := by
    simp only [first, take_of_rests rests]
  obtain ⟨gathers, -⟩ := gather_spec
    { server.session with schedule := server.session.schedule.opened change } tree change.work
  have extractedSound := gathers.sound (steady.sound.with (server.session.schedule.opened change)
    server.session.entries)
  simp only [handle, LiveSession.advance, Schedule.noteChange_of_rests rests, cycle]
  simp only [finish] at finished
  generalize gather _ tree change.work = result at finished gathers extractedSound ⊢
  obtain ⟨extracted, grew⟩ := result
  have schedule : extracted.schedule = server.session.schedule.opened change := gathers.schedule
  simp only [DevServer.advance, LiveSession.advance, schedule,
    Schedule.noteExtracted_opened] at finished ⊢
  cases due : grew || change.isTheme with
  | false =>
    simp only [due, Bool.false_eq_true, if_false, carryOut] at finished ⊢
    rw [finished]
    exact ⟨rfl, List.append_nil _⟩
  | true =>
    simp only [due, if_true] at finished ⊢
    obtain ⟨after, made, remakes⟩ := remake_spec
      { extracted with schedule := server.session.schedule.generating change } tree
      extractedSound.silent extractedSound.keeps
    have closed : after.schedule.noteGenerated =
        (server.session.schedule.closed true, .settle) := by
      obtain ⟨theme, published, kept, rfl⟩ := remakes.changed
      exact Schedule.noteGenerated_generating change
    rw [made]
    split at finished
    · rw [finished]
      simp only [carryOut, finish, made, DevServer.advance, LiveSession.advance, closed, true_and,
        List.nil_append]
    · next ended ends =>
      obtain rfl : after = ended :=
        congrArg Prod.snd (made.symm.trans (remake_of_endAtOnce ends tree))
      simp only [closed, carryOut] at finished ⊢
      rw [finished]
      exact ⟨rfl, List.append_nil _⟩

/-- The step of a session, and enough time for it to settle. -/
def undisturbed (tree : FileTree) : DevStep → List ServerEvent
  | .files _ => []
  | .request entry => [.request entry, .finish tree, .finish tree]
  | .notify path => [.notify tree path, .finish tree, .finish tree]

theorem after_undisturbed (steady : server.Steady) (idle : server.running = none)
    (nobody : server.waiting = []) (tree : FileTree) (step : DevStep) :
    server.after (undisturbed tree step) =
      ⟨(DevState.perform ⟨tree, server.session⟩ step).session, none, []⟩ := by
  have still : server = ⟨server.session, none, []⟩ := by rw [← idle, ← nobody]
  cases step with
  | files other => exact still
  | request entry =>
    simp only [undisturbed, DevState.perform, LiveSession.request, after, List.foldl_cons,
      List.foldl_nil, perform, DevServer.request, (isIdle_iff steady.follows).2 idle, if_true]
    split_ifs with new
    · have waits := steady.with (server.session.entries ++ [server.session.entryOf entry])
        (server.waiting ++ [server.session.entryOf entry])
      exact (take_undisturbed waits idle tree _).1
    · rw [finish_of_idle idle, finish_of_idle idle]
      exact still
  | notify path =>
    simp only [undisturbed, DevState.perform, LiveSession.notify, after, List.foldl_cons,
      List.foldl_nil, perform, DevServer.notify]
    cases server.session.meaningOf tree path with
    | some change => exact (take_undisturbed steady idle tree change).1
    | none =>
      simp only [finish_of_idle idle]
      exact still

def spread (state : DevState) : List DevStep → List ServerEvent
  | [] => []
  | step :: steps => undisturbed state.tree step ++ spread (state.perform step) steps

theorem after_spread (state : DevState) (steady : Steady ⟨state.session, none, []⟩)
    (steps : List DevStep) :
    after ⟨state.session, none, []⟩ (spread state steps) =
      ⟨(state.run steps).session, none, []⟩ := by
  induction steps generalizing state with
  | nil => rfl
  | cons step steps ih =>
    have first := after_undisturbed steady rfl rfl state.tree step
    have next := steady.after (undisturbed state.tree step)
    rw [first] at next
    rw [spread, after_append, first]
    exact ih (state.perform step) next

-- A session that is left to settle behind each step runs as one whose steps are handled at once.
theorem after_start_spread (tree : FileTree) (places : ProjectPlaces) (generator : Generator)
    (steps : List DevStep) :
    (DevServer.start places generator).after
        (.finish tree :: .finish tree :: spread (DevState.opened tree places generator) steps) =
      ⟨((DevState.opened tree places generator).run steps).session, none, []⟩ := by
  have unopened : Steady ⟨fresh .dev places generator .none, none, []⟩ :=
    ⟨sound_fresh places generator, Schedule.rests_idle, fun _ artifact made => by cases made⟩
  have opened : (((start places generator).finish tree).1.finish tree).1 =
      ⟨(DevState.opened tree places generator).session, none, []⟩ :=
    (take_undisturbed unopened rfl tree (.theme places.input)).1
  have steady := ((steady_start places generator).finish tree).finish tree
  rw [opened] at steady
  rw [after_cons, after_cons]
  simp only [perform, opened]
  exact after_spread _ steady steps

end UtilityCss.DevServer
