import UtilityCss.Proofs.Path.NormalForm
import UtilityCss.Proofs.Session.Server

set_option autoImplicit false

namespace UtilityCss

/-- What happens to a dev session: a page is asked for, a file is said to have changed while the
files are as in the tree, or the running stage ends, with the files that it read. -/
inductive ServerEvent where
  | request (entry : Path)
  | notify (tree : FileTree) (path : Path)
  | finish (tree : FileTree)

def ServerEvent.entries : ServerEvent → List Path
  | .request entry => [entry]
  | .notify _ _ => []
  | .finish _ => []

namespace DevServer

open LiveSession

def perform (server : DevServer) : ServerEvent → DevServer × List Reply
  | .request entry => server.request entry
  | .notify tree path => server.notify tree path
  | .finish tree => server.finish tree

def after (server : DevServer) (events : List ServerEvent) : DevServer :=
  events.foldl (fun server event => (server.perform event).1) server

def replies (server : DevServer) : List ServerEvent → List Reply
  | [] => []
  | event :: events => (server.perform event).2 ++ (server.perform event).1.replies events

variable {server start : DevServer} {session : LiveSession} {waiting : List Path}
  {tree : FileTree} {change : Change} {event : ServerEvent} {events : List ServerEvent}
  {result : DevServer × List Reply} {page path : Path}

theorem after_cons (server : DevServer) (event : ServerEvent) (events : List ServerEvent) :
    server.after (event :: events) = (server.perform event).1.after events := rfl

theorem after_append (server : DevServer) (first second : List ServerEvent) :
    server.after (first ++ second) = (server.after first).after second := List.foldl_append

theorem after_concat (server : DevServer) (events : List ServerEvent) (event : ServerEvent) :
    server.after (events ++ [event]) = ((server.after events).perform event).1 := by
  simp [after]

theorem Steady.perform (steady : server.Steady) (event : ServerEvent) :
    (server.perform event).1.Steady := by
  cases event with
  | request entry =>
    simp only [DevServer.perform, request]
    split_ifs
    · exact ((steady.with _ _).take _).1
    · exact steady
    · exact steady.with server.session.entries _
  | notify tree path =>
    simp only [DevServer.perform, notify]
    split
    · exact (steady.take _).1
    · exact steady
  | finish tree => exact steady.finish tree

theorem Steady.after (steady : server.Steady) (events : List ServerEvent) :
    (server.after events).Steady := by
  induction events generalizing server with
  | nil => exact steady
  | cons event events ih => exact ih (steady.perform event)

def pool (server : DevServer) (tree : FileTree) : CandidatePool :=
  match server.running with
  | some (.extraction work) =>
    server.session.candidates.merge
      (Candidate.ofFiles tree (work.reads tree server.session)).candidates
  | _ => server.session.candidates

structure Ends (server : DevServer) (tree : FileTree) (ended : LiveSession) : Prop where
  places : ended.places = server.session.places
  entries : ended.entries = server.session.entries
  pending : ended.schedule.pendingPaths = server.session.schedule.pendingPaths
  quiet : ended.schedule.Quiet ↔ server.session.schedule.Quiet
  candidates : ended.candidates = server.pool tree

theorem ends_of_gather (tree : FileTree) {work : Workload}
    (running : server.running = some (.extraction work)) (schedule : Schedule)
    (pending : schedule.pendingPaths = server.session.schedule.pendingPaths)
    (quiet : schedule.Quiet ↔ server.session.schedule.Quiet) :
    Ends server tree { (server.session.gather tree work).1 with schedule := schedule } := by
  obtain ⟨gathers, -⟩ := gather_spec server.session tree work
  refine ⟨gathers.places, gathers.entries, pending, quiet, ?_⟩
  simp only [pool, running]
  exact gathers.candidates

theorem Ends.remake (ends : Ends server tree session) (sound : session.Sound) :
    Ends server tree (session.remake tree).2 := by
  obtain ⟨after, made, remakes⟩ := remake_spec session tree sound.silent sound.keeps
  obtain ⟨theme, published, kept, rfl⟩ := remakes.changed
  rw [made]
  exact ⟨ends.places, ends.entries, ends.pending, ends.quiet, ends.candidates⟩

theorem quiet_generates (c : Schedule) : c.generates.Quiet ↔ c.Quiet :=
  ⟨fun quiet => ⟨quiet.rerun, quiet.paths, quiet.theme⟩,
    fun quiet => ⟨quiet.rerun, quiet.paths, quiet.theme⟩⟩

-- A stage that ends closes the cycle, or leads on to a generation.
theorem Steady.finish_ends (steady : server.Steady) (tree : FileTree) :
    ∃ ended, Ends server tree ended ∧ (Closes ended server.waiting (server.finish tree) ∨
      ((∃ work, server.running = some (.extraction work)) ∧
        server.finish tree = (⟨ended, some .generation, server.waiting⟩, [])) ∨
      (server.running = none ∧ ended = server.session ∧ server.finish tree = (server, []))) := by
  have finishes := finishes steady.follows steady.sound tree
  generalize server.finish tree = result at finishes
  cases finishes with
  | idle running =>
    exact ⟨server.session, ⟨rfl, rfl, rfl, .rfl, by simp [pool, running]⟩,
      .inr (.inr ⟨running, rfl, rfl⟩)⟩
  | quiet work running reloads still closes =>
    obtain ⟨gathers, -⟩ := gather_spec server.session tree work
    exact ⟨_, ends_of_gather tree running (server.session.gather tree work).1.schedule
      (by rw [gathers.schedule]) (by rw [gathers.schedule]), .inl closes⟩
  | generates work running =>
    exact ⟨_, ends_of_gather tree running server.session.schedule.generates rfl
      (quiet_generates _), .inr (.inl ⟨⟨work, running⟩, rfl⟩)⟩
  | skips work running closes =>
    obtain ⟨gathers, -⟩ := gather_spec server.session tree work
    have ends := ends_of_gather tree running server.session.schedule.generates rfl
      (quiet_generates _)
    exact ⟨_, ends.remake ((gathers.sound steady.sound).with _ _), .inl closes⟩
  | generated running closes =>
    have ends : Ends server tree server.session :=
      ⟨rfl, rfl, rfl, .rfl, by simp [pool, running]⟩
    exact ⟨_, ends.remake steady.sound, .inl closes⟩

theorem Closes.session_eq (closes : Closes session waiting result) :
    ∃ schedule, result.1.session = { session with schedule := schedule } := by
  cases closes <;> exact ⟨_, rfl⟩

theorem Steady.session_finish (steady : server.Steady) (tree : FileTree) :
    (server.finish tree).1.session.places = server.session.places ∧
      (server.finish tree).1.session.entries = server.session.entries ∧
        (server.finish tree).1.session.candidates = server.pool tree := by
  obtain ⟨ended, ends, closes | ⟨-, equal⟩ | ⟨-, rfl, equal⟩⟩ := steady.finish_ends tree
  · obtain ⟨schedule, equal⟩ := closes.session_eq
    rw [equal]
    exact ⟨ends.places, ends.entries, ends.candidates⟩
  · rw [equal]
    exact ⟨ends.places, ends.entries, ends.candidates⟩
  · rw [equal]
    exact ⟨ends.places, ends.entries, ends.candidates⟩

theorem growsInto_pool (server : DevServer) (tree : FileTree) :
    server.session.candidates.GrowsInto (server.pool tree) := by
  unfold pool
  split
  · exact server.session.candidates.growsInto_merge _
  · exact .refl _

/-- The page is among what the running extraction reads, or among what the next one will read. -/
def Due (server : DevServer) (page : Path) : Prop :=
  (∃ work, server.running = some (.extraction work) ∧ page ∈ work.paths) ∨
    page ∈ server.session.schedule.pendingPaths

theorem Closes.due (closes : Closes session waiting result)
    (pending : page ∈ session.schedule.pendingPaths) : result.1.Due page := by
  cases closes with
  | settles schedule rests quiet => simp [quiet.paths] at pending
  | reopens schedule stage theme quiet waits => exact .inl ⟨_, rfl, pending⟩

theorem Closes.pending (closes : Closes session waiting result) :
    result.1.session.schedule.pendingPaths = [] := by
  cases closes with
  | settles schedule rests quiet => exact rests.paths
  | reopens schedule stage theme quiet waits => exact quiet.paths

structure Takes (server : DevServer) (change : Change) (taken : DevServer) : Prop where
  places : taken.session.places = server.session.places
  entries : taken.session.entries = server.session.entries
  candidates : taken.session.candidates = server.session.candidates
  waiting : taken.waiting = server.waiting
  due : ∀ page, server.Due page → taken.Due page
  asked : ∀ page, change = .source page → ∃ path, page.same path ∧ taken.Due path ∧
    (path = page ∨ path ∈ server.session.schedule.pendingPaths)
  pending : ∀ path ∈ taken.session.schedule.pendingPaths,
    path ∈ server.session.schedule.pendingPaths ∨ change = .source path

theorem Steady.takes (steady : server.Steady) (change : Change) :
    Takes server change (server.take change).1 := by
  obtain none | ⟨stage, running⟩ := Option.eq_none_or_eq_some server.running
  · have rests : server.session.schedule.Rests := by simpa [none, Follows] using steady.follows
    rw [take_of_rests rests]
    refine ⟨rfl, rfl, rfl, rfl, fun page due => ?_, ?_, by simp [Schedule.opened]⟩
    · simp [Due, none, rests.paths] at due
    · rintro page rfl
      exact ⟨page, Path.same_refl page, .inl ⟨_, rfl, List.mem_singleton_self page⟩, .inl rfl⟩
  · have busy : server.session.schedule.isIdle = false := by
      simpa [running] using (isIdle_iff steady.follows).not
    rw [take_of_busy busy]
    refine ⟨rfl, rfl, rfl, rfl, fun page due => due.imp_right fun waits => ?_, ?_,
      fun path waits => ?_⟩
    · cases change with
      | source path => exact Path.mem_insertOrdered_of_mem waits
      | theme path => exact waits
    · rintro page rfl
      obtain ⟨path, member, same⟩ :=
        page.exists_same_mem_insertOrdered server.session.schedule.pendingPaths
      exact ⟨path, same, .inr member, Path.eq_or_mem_of_mem_insertOrdered member⟩
    · cases change with
      | source added =>
        rcases Path.eq_or_mem_of_mem_insertOrdered waits with rfl | before
        · exact .inr rfl
        · exact .inl before
      | theme added => exact .inl waits

/-- A session at these places was asked for some entries: each page was read, or will be. -/
structure Keeps (places : ProjectPlaces) (entries : List Path) (read : Path → Prop)
    (server : DevServer) : Prop where
  located : server.session.places = places
  asked : ∀ page, places.Asks entries page → page ∈ server.session.entries
  isAsked : ∀ page ∈ server.session.entries, ∃ entry, places.page entry = page
  normal : ∀ path ∈ server.session.schedule.pendingPaths, ∃ other : Path, other.normalize = path
  due : ∀ page ∈ server.session.entries, read page ∨ server.Due page

variable {places : ProjectPlaces} {entries : List Path} {read : Path → Prop}

theorem Keeps.take (keeps : Keeps places entries read server) (steady : server.Steady)
    (normal : ∀ path, change = .source path → ∃ other : Path, other.normalize = path) :
    Keeps places entries read (server.take change).1 := by
  have takes := steady.takes change
  refine ⟨takes.places.trans keeps.located, ?_, ?_, fun path waits => ?_, fun page member => ?_⟩
  · rw [takes.entries]
    exact keeps.asked
  · rw [takes.entries]
    exact keeps.isAsked
  · exact (takes.pending path waits).elim (keeps.normal path) (normal path)
  · exact (keeps.due page (takes.entries ▸ member)).imp_right (takes.due page)

theorem Keeps.finish (keeps : Keeps places entries read server) (steady : server.Steady)
    (tree : FileTree) :
    Keeps places entries (fun page => read page ∨
      ∃ work, server.running = some (.extraction work) ∧ page ∈ work.paths)
      (server.finish tree).1 := by
  obtain ⟨ended, ends, outcome⟩ := steady.finish_ends tree
  obtain ⟨located, listed, -⟩ := steady.session_finish tree
  refine ⟨located.trans keeps.located, ?_, ?_, fun path waits => ?_, fun page member => ?_⟩
  · rw [listed]
    exact keeps.asked
  · rw [listed]
    exact keeps.isAsked
  · rcases outcome with closes | ⟨-, equal⟩ | ⟨-, -, equal⟩
    · simp [closes.pending] at waits
    · rw [equal] at waits
      exact keeps.normal path (ends.pending ▸ waits)
    · rw [equal] at waits
      exact keeps.normal path waits
  · rcases keeps.due page (listed ▸ member) with done | reads | waits
    · exact .inl (.inl done)
    · exact .inl (.inr reads)
    · rcases outcome with closes | ⟨-, equal⟩ | ⟨-, -, equal⟩
      · exact .inr (closes.due (ends.pending ▸ waits))
      · rw [equal]
        exact .inr (.inr (ends.pending ▸ waits))
      · rw [equal]
        exact .inr (.inr waits)

theorem Keeps.isNewEntry_iff (keeps : Keeps places entries read server)
    (absolute : places.root.isAbsolute = true) (entry : Path) :
    server.session.isNewEntry (places.page entry) = true ↔
      (places.page entry).same places.input = false ∧
        places.page entry ∉ server.session.entries := by
  rw [isNewEntry, keeps.located, Bool.and_eq_true, Bool.not_eq_true', Bool.not_eq_true',
    List.any_eq_false]
  refine and_congr_right fun _ => ⟨fun new member => new _ member (Path.same_refl _), ?_⟩
  intro absent other member same
  obtain ⟨earlier, rfl⟩ := keeps.isAsked other member
  exact absent (ProjectPlaces.page_eq_of_same absolute same ▸ member)

theorem Keeps.of_known (keeps : Keeps places entries read server) {entry : Path}
    (known : (places.page entry).same places.input = false →
      places.page entry ∈ server.session.entries) (waiting : List Path) :
    Keeps places (entries ++ [entry]) read { server with waiting := waiting } := by
  refine ⟨keeps.located, ?_, keeps.isAsked, keeps.normal, keeps.due⟩
  rintro page ⟨other, earlier, member, rfl⟩
  rcases List.mem_append.1 member with before | last
  · exact keeps.asked _ ⟨other, earlier, before, rfl⟩
  · rw [List.mem_singleton.1 last] at other ⊢
    exact known other

theorem Keeps.request (keeps : Keeps places entries read server) (steady : server.Steady)
    (absolute : places.root.isAbsolute = true) (entry : Path) :
    Keeps places (entries ++ [entry]) read (server.request entry).1 := by
  have named : server.session.entryOf entry = places.page entry := by
    rw [entryOf, keeps.located, ProjectPlaces.page]
  have isNew := keeps.isNewEntry_iff absolute entry
  simp only [DevServer.request, named]
  split_ifs with new idle
  · have takes := (steady.with (server.session.entries ++ [places.page entry])
      (server.waiting ++ [places.page entry])).takes (.source (places.page entry))
    refine ⟨takes.places.trans keeps.located, fun page asks => ?_, fun page member => ?_,
      fun path waits => ?_, fun page member => ?_⟩
    · rw [takes.entries]
      obtain ⟨other, earlier, member, rfl⟩ := asks
      rcases List.mem_append.1 member with before | last
      · exact List.mem_append_left _ (keeps.asked _ ⟨other, earlier, before, rfl⟩)
      · rw [List.mem_singleton.1 last]
        exact List.mem_append_right _ (List.mem_singleton_self _)
    · rw [takes.entries] at member
      rcases List.mem_append.1 member with before | last
      · exact keeps.isAsked page before
      · exact ⟨entry, (List.mem_singleton.1 last).symm⟩
    · rcases takes.pending path waits with before | added
      · exact keeps.normal path before
      · exact ⟨_, (Change.source.inj added)⟩
    · rw [takes.entries] at member
      rcases List.mem_append.1 member with before | last
      · exact (keeps.due page before).imp_right (takes.due page)
      · rw [List.mem_singleton.1 last]
        obtain ⟨path, same, due, rfl | waits⟩ := takes.asked _ rfl
        · exact .inr due
        · -- What waits in another spelling is a normal form too, so it is the page.
          obtain ⟨other, rfl⟩ := keeps.normal path waits
          have joined := Source.isAbsolute_join absolute (q := entry)
          rw [Path.normalize_eq_of_same_right joined same] at due
          exact .inr due
  · refine keeps.of_known (fun apart => ?_) server.waiting
    by_contra absent
    exact new (isNew.2 ⟨apart, absent⟩)
  · refine keeps.of_known (fun apart => ?_) _
    by_contra absent
    exact new (isNew.2 ⟨apart, absent⟩)

theorem Closes.replies (closes : Closes session waiting result) :
    (∀ reply ∈ result.2, result.1.running = none ∧ reply.result = result.1.session.reply) ∧
      result.2.map Reply.page ++ result.1.waiting = waiting ∧
        (result.1.running = none → result.1.waiting = []) := by
  cases closes with
  | settles schedule rests quiet =>
    refine ⟨fun reply told => ?_, by simp [Function.comp_def], fun _ => rfl⟩
    obtain ⟨page, -, rfl⟩ := List.mem_map.1 told
    exact ⟨rfl, rfl⟩
  | reopens schedule stage theme quiet waits => exact ⟨by simp, rfl, by simp⟩

/-- What one event answers, when the session has the places and nothing waits in an idle one. -/
structure Answers (places : ProjectPlaces) (server : DevServer) (event : ServerEvent)
    (result : DevServer × List Reply) : Prop where
  settled : ∀ reply ∈ result.2, result.1.running = none ∧ reply.result = result.1.session.reply
  ordered : result.2.map Reply.page ++ result.1.waiting =
    server.waiting ++ event.entries.map places.page
  none_waits : result.1.running = none → result.1.waiting = []

theorem Steady.answers (steady : server.Steady) (located : server.session.places = places)
    (answered : server.running = none → server.waiting = []) (event : ServerEvent) :
    Answers places server event (server.perform event) := by
  have idle := isIdle_iff steady.follows
  cases event with
  | request entry =>
    have named : server.session.entryOf entry = places.page entry := by
      rw [entryOf, located, ProjectPlaces.page]
    simp only [DevServer.perform, DevServer.request, named]
    split_ifs with new still
    · have waits := steady.with (server.session.entries ++ [places.page entry])
        (server.waiting ++ [places.page entry])
      obtain ⟨-, busy, silent⟩ := waits.take (.source (places.page entry))
      have takes := waits.takes (.source (places.page entry))
      refine ⟨by simp [silent], ?_, fun none => absurd none busy⟩
      rw [silent, takes.waiting]
      rfl
    · have none := idle.1 still
      exact ⟨by simp [none], by simp [answered none, ServerEvent.entries], answered⟩
    · exact ⟨by simp, rfl, fun none => absurd (idle.2 none) still⟩
  | notify tree path =>
    simp only [DevServer.perform, DevServer.notify]
    split
    · next change means =>
      obtain ⟨-, busy, silent⟩ := steady.take change
      refine ⟨by simp [silent], ?_, fun none => absurd none busy⟩
      rw [silent, (steady.takes change).waiting]
      exact (List.append_nil _).symm
    · exact ⟨by simp, by simp [ServerEvent.entries], answered⟩
  | finish tree =>
    obtain ⟨ended, ends, closes | ⟨-, equal⟩ | ⟨-, -, equal⟩⟩ := steady.finish_ends tree
    · obtain ⟨settled, ordered, nobody⟩ := closes.replies
      exact ⟨settled, by simpa [ServerEvent.entries, DevServer.perform] using ordered, nobody⟩
    · simp only [DevServer.perform, equal]
      exact ⟨by simp, by simp [ServerEvent.entries], by simp⟩
    · simp only [DevServer.perform, equal]
      exact ⟨by simp, by simp [ServerEvent.entries], answered⟩

section Run

def entriesOf (events : List ServerEvent) : List Path := events.flatMap ServerEvent.entries

/-- An extraction of the run read the page, with the files as they are in the tree. -/
def ReadAs (start : DevServer) (events : List ServerEvent) (page : Path) (tree : FileTree) : Prop :=
  ∃ before later work, events = before ++ .finish tree :: later ∧
    (start.after before).running = some (.extraction work) ∧ page ∈ work.paths

theorem ReadAs.concat (read : ReadAs start events page tree) (event : ServerEvent) :
    ReadAs start (events ++ [event]) page tree := by
  obtain ⟨before, later, work, rfl, running, member⟩ := read
  exact ⟨before, later ++ [event], work, by simp, running, member⟩

theorem Steady.growsInto_perform (steady : server.Steady) (event : ServerEvent) :
    server.session.candidates.GrowsInto (server.perform event).1.session.candidates := by
  cases event with
  | request entry =>
    simp only [DevServer.perform, DevServer.request]
    split_ifs
    · rw [((steady.with _ _).takes _).candidates]
      exact .refl _
    · exact .refl _
    · exact .refl _
  | notify tree path =>
    simp only [DevServer.perform, DevServer.notify]
    split
    · rw [(steady.takes _).candidates]
      exact .refl _
    · exact .refl _
  | finish tree =>
    simp only [DevServer.perform]
    rw [(steady.session_finish tree).2.2]
    exact growsInto_pool server tree

theorem Steady.growsInto_after (steady : server.Steady) (events : List ServerEvent) :
    server.session.candidates.GrowsInto (server.after events).session.candidates := by
  induction events generalizing server with
  | nil => exact .refl _
  | cons event events ih => exact (steady.growsInto_perform event).trans (ih (steady.perform event))

theorem ReadAs.known (read : ReadAs start events page tree) (steady : start.Steady)
    {token : String} (isIn : Candidate.IsIn tree page token) :
    token ∈ (start.after events).session.candidates.items := by
  obtain ⟨before, later, work, rfl, running, member⟩ := read
  have now := steady.after before
  have split : start.after (before ++ .finish tree :: later) =
      (((start.after before).finish tree).1).after later := by simp [DevServer.after, perform]
  rw [split]
  refine ((now.finish tree).growsInto_after later).kept token ?_
  rw [(now.session_finish tree).2.2, pool, running, CandidatePool.mem_merge,
    Candidate.mem_ofFiles_iff]
  exact .inl ⟨page, List.mem_append_left _ member, isIn⟩

theorem replies_concat (server : DevServer) (events : List ServerEvent) (event : ServerEvent) :
    server.replies (events ++ [event]) =
      server.replies events ++ ((server.after events).perform event).2 := by
  induction events generalizing server with
  | nil => simp [replies, after]
  | cons first rest ih =>
    have later := ih (server.perform first).1
    simp only [List.cons_append, replies, later, List.append_assoc]
    rfl

theorem entriesOf_append (first second : List ServerEvent) :
    entriesOf (first ++ second) = entriesOf first ++ entriesOf second := List.flatMap_append

theorem entriesOf_concat (events : List ServerEvent) (event : ServerEvent) :
    entriesOf (events ++ [event]) = entriesOf events ++ event.entries := by
  simp [entriesOf]

theorem Keeps.mono (keeps : Keeps places entries read server) {reads : Path → Prop}
    (more : ∀ page, read page → reads page) : Keeps places entries reads server :=
  ⟨keeps.located, keeps.asked, keeps.isAsked, keeps.normal,
    fun page member => (keeps.due page member).imp_left (more page)⟩

theorem keeps_start (places : ProjectPlaces) (generator : Generator) :
    Keeps places [] read (DevServer.start places generator) := by
  rw [start_eq]
  exact ⟨rfl, by simp [ProjectPlaces.Asks], by simp [fresh], by simp [Schedule.opened],
    by simp [fresh]⟩

theorem normalize_of_meaningOf {other : Path}
    (means : session.meaningOf tree path = some (.source other)) : path.normalize = other := by
  unfold meaningOf at means
  dsimp only at means
  split_ifs at means
  · simp at means
  · simpa using means

-- What every run keeps: by induction from its end, one event at a time.
theorem keeps_after (absolute : places.root.isAbsolute = true) (generator : Generator)
    (events : List ServerEvent) :
    Keeps places (entriesOf events)
      (fun page => ∃ tree, ReadAs (DevServer.start places generator) events page tree)
      ((DevServer.start places generator).after events) := by
  induction events using List.reverseRecOn with
  | nil => exact keeps_start places generator
  | append_singleton events event ih =>
    have steady := (steady_start places generator).after events
    have before := ih.mono fun page (read : ∃ tree, ReadAs _ events page tree) =>
      read.imp fun tree read => read.concat event
    rw [after_concat, entriesOf_concat]
    cases event with
    | request entry => exact before.request steady absolute entry
    | notify tree path =>
      simp only [perform, notify, ServerEvent.entries, List.append_nil]
      split
      · next change means =>
        refine before.take steady ?_
        rintro other rfl
        exact ⟨path, normalize_of_meaningOf means⟩
      · exact before
    | finish tree =>
      simp only [perform, ServerEvent.entries, List.append_nil]
      refine (before.finish steady tree).mono ?_
      rintro page (read | ⟨work, running, member⟩)
      · exact read
      · exact ⟨tree, events, [], work, rfl, running, member⟩

-- Requests are answered in their order, each once, and all of them when nothing runs.
theorem answered_after (absolute : places.root.isAbsolute = true) (generator : Generator)
    (events : List ServerEvent) :
    ((DevServer.start places generator).replies events).map Reply.page ++
        ((DevServer.start places generator).after events).waiting =
      (entriesOf events).map places.page ∧
    (((DevServer.start places generator).after events).running = none →
      ((DevServer.start places generator).after events).waiting = []) := by
  induction events using List.reverseRecOn with
  | nil => exact ⟨rfl, fun _ => rfl⟩
  | append_singleton events event ih =>
    have steady := (steady_start places generator).after events
    have located := (keeps_after absolute generator events).located
    have answers := steady.answers located ih.2 event
    rw [after_concat, replies_concat, entriesOf_concat, List.map_append, List.map_append, ← ih.1]
    refine ⟨?_, answers.none_waits⟩
    rw [List.append_assoc, List.append_assoc, answers.ordered]

-- However requests and changes fall into the stages of a session, a reply comes when nothing runs,
-- and behind an extraction of each page that was asked for. It is what a generation from the last
-- inputs and all of their candidates gives, if that does not fail.
theorem replies_complete (absolute : places.root.isAbsolute = true) (generator : Generator)
    (events : List ServerEvent) (event : ServerEvent) :
    ∀ reply ∈ (((DevServer.start places generator).after events).perform event).2,
      let server := (DevServer.start places generator).after (events ++ [event])
      server.running = none ∧ reply.result = server.session.reply ∧
      (∀ artifact, server.session.rendering = some (.ok artifact) → reply.result = .ok artifact) ∧
      ∀ page, places.Asks (entriesOf (events ++ [event])) page →
        ∃ tree, ReadAs (DevServer.start places generator) (events ++ [event]) page tree ∧
          ∀ token, Candidate.IsIn tree page token → token ∈ server.session.candidates.items := by
  intro reply told server
  have steady := (steady_start places generator).after events
  have located := (keeps_after absolute generator events).located
  have answers := steady.answers located (answered_after absolute generator events).2 event
  have same : server = (((DevServer.start places generator).after events).perform event).1 :=
    after_concat _ events event
  obtain ⟨none, equal⟩ := answers.settled reply told
  rw [← same] at none equal
  have settled : server.Steady := same ▸ steady.perform event
  refine ⟨none, equal, fun artifact made => ?_, fun page asks => ?_⟩
  · rw [equal, LiveSession.reply, settled.fresh (by simp [none]) artifact made]
  · have keeps := keeps_after absolute generator (events ++ [event])
    rcases keeps.due page (keeps.asked page asks) with ⟨tree, read⟩ | ⟨work, running, -⟩ | waits
    · exact ⟨tree, read, fun token isIn => read.known (steady_start places generator) isIn⟩
    · exact absurd (running.symm.trans none) (by simp)
    · have rests : server.session.schedule.Rests := by simpa [none, Follows] using settled.follows
      exact absurd waits (by simp [server] at rests; simp [rests.paths])

end Run

end DevServer

end UtilityCss
