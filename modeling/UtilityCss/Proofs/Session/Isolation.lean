import UtilityCss.Proofs.Project.ThemeFiles
import UtilityCss.Proofs.Session.Requests

set_option autoImplicit false

namespace UtilityCss

open UtilityCss.Path FileTree

theorem Candidate.ofFiles_congr {tree other : FileTree} {paths : List Path}
    (alike : ∀ path ∈ paths, other.readBytes path = tree.readBytes path) :
    ofFiles other paths = ofFiles tree paths := by
  have each : paths.map (ofFile other) = paths.map (ofFile tree) :=
    List.map_congr_left fun path member => by simp only [ofFile, alike path member]
  simp only [ofFiles, each]

namespace LiveSession

def withIgnoreFiles (rules : List (Path × Ignore.RuleSet)) (session : LiveSession) : LiveSession :=
  { session with inputs := session.inputs.map fun inputs => inputs.withIgnoreFiles rules }

variable {tree other : FileTree} {session : LiveSession} {rules : List (Path × Ignore.RuleSet)}
  {change : Change}

theorem foldl_note_withIgnoreFiles (errors : List BuildError) (session : LiveSession) :
    errors.foldl note (session.withIgnoreFiles rules) =
      (errors.foldl note session).withIgnoreFiles rules := by
  induction errors generalizing session with
  | nil => rfl
  | cons error errors ih => exact ih (session.note error)

theorem readFiles_withIgnoreFiles (session : LiveSession) {paths : List Path}
    (alike : Candidate.ofFiles other paths = Candidate.ofFiles tree paths) :
    (session.withIgnoreFiles rules).readFiles other paths =
      ((session.readFiles tree paths).1.withIgnoreFiles rules, (session.readFiles tree paths).2) := by
  simp only [readFiles, alike, foldl_note_withIgnoreFiles]
  rfl

theorem accept_withIgnoreFiles (silent : session.delivery = .none) (artifact : Artifact) :
    ((session.withIgnoreFiles rules).accept other artifact).2 =
      (session.accept tree artifact).2.withIgnoreFiles rules := by
  simp only [accept, deliver, withIgnoreFiles, silent]
  split <;> rfl

theorem keepTheme_withIgnoreFiles (inputs : ProjectInputs) (theme : Theme) :
    (session.withIgnoreFiles rules).keepTheme (inputs.withIgnoreFiles rules) theme =
      (session.keepTheme inputs theme).withIgnoreFiles rules := by
  have same : (inputs.withIgnoreFiles rules).stylesheet = inputs.stylesheet := rfl
  unfold keepTheme
  rw [same]
  split <;> rfl

theorem delivery_keepTheme (inputs : ProjectInputs) (theme : Theme) :
    (session.keepTheme inputs theme).delivery = session.delivery := by
  unfold keepTheme
  split <;> rfl

theorem remake_withIgnoreFiles (silent : session.delivery = .none) :
    ((session.withIgnoreFiles rules).remake other).2 =
      (session.remake tree).2.withIgnoreFiles rules := by
  cases loaded : session.inputs with
  | none => simp only [remake, withIgnoreFiles, loaded, Option.map_none, note]
  | some inputs =>
    have loadedToo : (session.withIgnoreFiles rules).inputs = some (inputs.withIgnoreFiles rules) := by
      simp only [withIgnoreFiles, loaded, Option.map_some]
    have current : (session.withIgnoreFiles rules).isUpToDate = session.isUpToDate := rfl
    have theme : (session.withIgnoreFiles rules).themeFor (inputs.withIgnoreFiles rules) =
        session.themeFor inputs := rfl
    -- The rules of ignore files have no part in the theme and none in the text.
    simp only [remake, loaded, loadedToo, current, theme]
    split_ifs
    · rfl
    cases session.themeFor inputs with
    | error error => rfl
    | ok theme =>
      simp only [keepTheme_withIgnoreFiles]
      have kept := (delivery_keepTheme inputs theme).trans silent
      generalize session.keepTheme inputs theme = resolved at kept
      have rendered : Artifact.render (resolved.withIgnoreFiles rules).generator
            (inputs.withIgnoreFiles rules).stylesheet theme (resolved.withIgnoreFiles rules).candidates
            (resolved.withIgnoreFiles rules).themeRevision =
          Artifact.render resolved.generator inputs.stylesheet theme resolved.candidates
            resolved.themeRevision := rfl
      rw [rendered]
      cases Artifact.render resolved.generator inputs.stylesheet theme resolved.candidates
          resolved.themeRevision with
      | error error => rfl
      | ok artifact => exact accept_withIgnoreFiles kept artifact

theorem cycle_withIgnoreFiles {first second extracted : LiveSession} {work : Workload} {grew : Bool}
    (one : first.gather tree work = (extracted, grew))
    (two : second.gather other work = (extracted.withIgnoreFiles rules, grew))
    (silent : extracted.delivery = .none) :
    (second.cycle other work).2 = (first.cycle tree work).2.withIgnoreFiles rules := by
  have schedule : (extracted.withIgnoreFiles rules).schedule = extracted.schedule := rfl
  simp only [cycle, one, two, advance, schedule]
  cases step : extracted.schedule.noteExtracted grew with
  | mk next instruction =>
    cases instruction with
    -- A cycle that goes on with a generation makes the artifact of either session.
    | generate =>
      have again : (LiveSession.remake
            (LiveSession.withIgnoreFiles rules { extracted with schedule := next }) other).2 =
          (LiveSession.remake { extracted with schedule := next } tree).2.withIgnoreFiles rules :=
        remake_withIgnoreFiles silent
      exact congrArg (fun session : LiveSession => (session.advance Schedule.noteGenerated).1) again
    | extract work => rfl
    | settle => rfl
    | wait => rfl

def begun (session : LiveSession) (change : Change) : LiveSession :=
  { session with schedule := session.schedule.opened change }

theorem delivery_gather (session : LiveSession) (tree : FileTree) (change : Change) :
    (session.gather tree change.work).1.delivery = session.delivery := by
  obtain ⟨kept, gathered⟩ := gather_eq session tree change.work
  rw [gathered]
  change (session.afterLoad (change.work.load? tree session.places)).delivery = session.delivery
  unfold afterLoad
  split <;> rfl

theorem handle_withIgnoreFiles {first second extracted : LiveSession} {grew : Bool}
    (rests : first.schedule.Rests) (silent : first.delivery = .none)
    (same : second.schedule = first.schedule)
    (one : (first.begun change).gather tree change.work = (extracted, grew))
    (two : (second.begun change).gather other change.work = (extracted.withIgnoreFiles rules, grew)) :
    (second.handle other change).2 = (first.handle tree change).2.withIgnoreFiles rules := by
  have restsToo : second.schedule.Rests := same ▸ rests
  have quiet := delivery_gather (first.begun change) tree change
  rw [one] at quiet
  simp only [handle, advance, first.schedule.noteChange_of_rests rests,
    second.schedule.noteChange_of_rests restsToo]
  exact cycle_withIgnoreFiles one two (quiet.trans silent)

theorem handle_source_withIgnoreFiles (session : LiveSession) (rests : session.schedule.Rests)
    (silent : session.delivery = .none) {page : Path}
    (alike : Candidate.ofFiles other [page] = Candidate.ofFiles tree [page]) :
    ((session.withIgnoreFiles rules).handle other (.source page)).2 =
      (session.handle tree (.source page)).2.withIgnoreFiles rules := by
  have one : (session.begun (.source page)).gather tree (Change.source page).work =
      (session.begun (.source page)).readFiles tree [page] := rfl
  have two : ((session.withIgnoreFiles rules).begun (.source page)).gather other
        (Change.source page).work =
      ((session.begun (.source page)).withIgnoreFiles rules).readFiles other [page] := rfl
  rw [readFiles_withIgnoreFiles _ alike] at two
  exact handle_withIgnoreFiles rests silent rfl one two

theorem start_withIgnoreFiles {places : ProjectPlaces} {generator : Generator}
    {inputs : ProjectInputs} (loaded : ProjectInputs.read tree places = .ok inputs)
    (loadedToo : ProjectInputs.read other places = .ok (inputs.withIgnoreFiles rules))
    (declared : (inputs.withIgnoreFiles rules).selector.declaredFiles other =
      inputs.selector.declaredFiles tree)
    (alike : Candidate.ofFiles other (inputs.selector.declaredFiles tree) =
      Candidate.ofFiles tree (inputs.selector.declaredFiles tree)) :
    ((fresh .dev places generator .none).start other).2 =
      ((fresh .dev places generator .none).start tree).2.withIgnoreFiles rules := by
  have settled := settled_fresh places generator
  have one : ((fresh .dev places generator .none).begun (.theme places.input)).gather tree
        (Change.theme places.input).work =
      (((fresh .dev places generator .none).begun (.theme places.input)).install inputs).readFiles
        tree (inputs.selector.declaredFiles tree) := by
    simp only [gather, Change.work, begun, fresh, loaded, rescan]
    rfl
  have two : ((fresh .dev places generator .none).begun (.theme places.input)).gather other
        (Change.theme places.input).work =
      ((((fresh .dev places generator .none).begun (.theme places.input)).install
        inputs).withIgnoreFiles rules).readFiles other (inputs.selector.declaredFiles tree) := by
    simp only [gather, Change.work, begun, fresh, loadedToo, rescan, ← declared]
    rfl
  rw [readFiles_withIgnoreFiles _ alike] at two
  exact handle_withIgnoreFiles settled.rests settled.silent rfl one two

theorem request_withIgnoreFiles (settled : session.Settled) {entry : Path}
    (alike : session.isNewEntry (session.entryOf entry) = true →
      Candidate.ofFiles other [session.entryOf entry] =
        Candidate.ofFiles tree [session.entryOf entry]) :
    (session.withIgnoreFiles rules).request other entry =
      (session.request tree entry).withIgnoreFiles rules := by
  have sameEntry : (session.withIgnoreFiles rules).entryOf entry = session.entryOf entry := rfl
  have sameNew : (session.withIgnoreFiles rules).isNewEntry = session.isNewEntry := rfl
  simp only [request, sameEntry, sameNew]
  split_ifs with new
  · exact handle_source_withIgnoreFiles
      { session with entries := session.entries ++ [session.entryOf entry] } settled.rests
      settled.silent (alike new)
  · rfl

end LiveSession

namespace DevState

open LiveSession

variable {tree other : FileTree} {paths : ProjectPaths} {places : ProjectPlaces}
  {generator : Generator} {inputs : ProjectInputs} {rules : List (Path × Ignore.RuleSet)}
  {state : DevState} {entries : List Path}

def onFiles (other : FileTree) (rules : List (Path × Ignore.RuleSet)) (state : DevState) : DevState :=
  ⟨other, state.session.withIgnoreFiles rules⟩

theorem reply_onFiles (state : DevState) :
    (state.onFiles other rules).session.reply = state.session.reply := rfl

theorem perform_onFiles (rules : List (Path × Ignore.RuleSet)) (settled : state.session.Settled)
    {entry : Path}
    (alike : (state.session.places.page entry).same state.session.places.input = false →
      Candidate.ofFiles other [state.session.places.page entry] =
        Candidate.ofFiles state.tree [state.session.places.page entry]) :
    (state.onFiles other rules).perform (.request entry) =
      (state.perform (.request entry)).onFiles other rules := by
  have fresh (new : state.session.isNewEntry (state.session.entryOf entry) = true) :
      (state.session.entryOf entry).same state.session.places.input = false := by
    simp only [isNewEntry, Bool.and_eq_true, Bool.not_eq_true'] at new
    exact new.1
  have same : (state.session.withIgnoreFiles rules).request other entry =
      (state.session.request state.tree entry).withIgnoreFiles rules :=
    request_withIgnoreFiles settled fun new => alike (fresh new)
  simp only [onFiles, perform, same]

theorem run_onFiles (settled : state.session.Settled)
    (alike : ∀ page, state.session.places.Asks entries page →
      Candidate.ofFiles other [page] = Candidate.ofFiles state.tree [page]) :
    (state.onFiles other rules).run (entries.map .request) =
      (state.run (entries.map .request)).onFiles other rules := by
  induction entries generalizing state with
  | nil => rfl
  | cons entry rest ih =>
    have step := perform_onFiles rules settled fun source =>
      alike _ ⟨source, entry, List.mem_cons_self, rfl⟩
    rw [List.map_cons, run_cons, run_cons, step]
    refine ih (settled_perform settled _) fun page asks => ?_
    rw [places_perform settled] at asks
    rw [tree_perform fun _ => DevStep.noConfusion]
    obtain ⟨source, earlier, member, names⟩ := asks
    exact alike page ⟨source, earlier, List.mem_cons_of_mem _ member, names⟩

theorem opened_onFiles (generator : Generator) (located : paths.locate tree = .ok places)
    (loaded : ProjectInputs.read tree places = .ok inputs) (same : tree.outline = other.outline)
    (alike : ∀ path ∈ inputs.themeFiles ++ inputs.selector.declaredFiles tree,
      other.readBytes path = tree.readBytes path) :
    ∃ rules, opened other places generator = (opened tree places generator).onFiles other rules := by
  obtain ⟨themeFiles, declared⟩ := List.forall_mem_append.1 alike
  have absolute := isAbsolute_of_isPlace (ProjectPaths.isPlace_of_locate located).2
  obtain ⟨rules, loadedToo⟩ := ProjectInputs.read_transfer absolute loaded
    (sameDirectories_of_outline same)
    fun file member => readsAlike_of_eq (by simp only [readText, themeFiles file member])
  refine ⟨rules, congrArg (DevState.mk other) ?_⟩
  exact start_withIgnoreFiles loaded loadedToo
    (SourceSelector.declaredFiles_congr inputs.selector rules same)
    (Candidate.ofFiles_congr declared)

def answering (tree : FileTree) (places : ProjectPlaces) (generator : Generator)
    (entries : List Path) : LiveSession :=
  ((opened tree places generator).run (entries.map .request)).session

/-- What requests make a session on unchanging files see: the declared sources and the pages that
they ask for, and of all other files only the theme files. -/
structure ObservesRequests (tree : FileTree) (paths : ProjectPaths) (places : ProjectPlaces)
    (inputs : ProjectInputs) (generator : Generator) : Prop where
  candidates : ∀ entries token,
    token ∈ (answering tree places generator entries).candidates.items ↔
      ∃ path, (path ∈ inputs.selector.declaredFiles tree ∨ places.Asks entries path) ∧
        Candidate.IsIn tree path token
  unordered : ∀ entries others, (∀ page, places.Asks entries page ↔ places.Asks others page) →
    (answering tree places generator entries).candidates.items =
      (answering tree places generator others).candidates.items
  isolated : ∀ other entries, tree.outline = other.outline →
    (∀ path, path ∈ inputs.themeFiles ∨ path ∈ inputs.selector.declaredFiles tree ∨
      places.Asks entries path → other.readBytes path = tree.readBytes path) →
    paths.locate other = .ok places ∧
      (answering other places generator entries).reply =
        (answering tree places generator entries).reply

/-- A dev session that could load its inputs sees what it is asked for and nothing else. -/
theorem observes_requests (tree : FileTree) (paths : ProjectPaths) (places : ProjectPlaces)
    (inputs : ProjectInputs) (generator : Generator) (located : paths.locate tree = .ok places)
    (loaded : ProjectInputs.read tree places = .ok inputs) :
    ObservesRequests tree paths places inputs generator := by
  have absolute := isAbsolute_of_isPlace (ProjectPaths.isPlace_of_locate located).1
  have asked (entries : List Path) : Asked tree places inputs entries
      ((opened tree places generator).run (entries.map .request)) := by
    simpa using (asked_opened generator loaded).requests absolute entries
  constructor
  · exact fun entries => (asked entries).candidates
  · intro entries others same
    refine (asked entries).increasing.eq_of_mem_iff (asked others).increasing fun token => ?_
    have found := (asked entries).candidates token
    simp only [same] at found
    exact found.trans ((asked others).candidates token).symm
  · intro other entries same alike
    refine ⟨ProjectPaths.locate_congr same paths ▸ located, ?_⟩
    have sources : ∀ path ∈ inputs.themeFiles ++ inputs.selector.declaredFiles tree,
        other.readBytes path = tree.readBytes path := fun path member =>
      alike path ((List.mem_append.1 member).imp_right .inl)
    have start := asked_opened generator loaded
    have pages : ∀ page, (opened tree places generator).session.places.Asks entries page →
        Candidate.ofFiles other [page] =
          Candidate.ofFiles (opened tree places generator).tree [page] := by
      rw [start.located, start.still]
      intro page asks
      refine Candidate.ofFiles_congr fun path member => ?_
      exact List.mem_singleton.1 member ▸ alike page (.inr (.inr asks))
    obtain ⟨rules, begins⟩ := opened_onFiles generator located loaded same sources
    rw [answering, answering, begins, run_onFiles start.settled pages, reply_onFiles]

def kitPages : FileTree :=
  ⟨[("kit.html", .file "grid".toUTF8), ("more.html", .file "hidden".toUTF8),
    ("page.html", .file "flex".toUTF8),
    ("site.css", .file "@import \"windsmith\";\n@source \"./kit.html\";\n".toUTF8)], []⟩

def otherKitPages : FileTree :=
  ⟨[("kit.html", .file "grid".toUTF8), ("more.html", .file "block".toUTF8),
    ("page.html", .file "flex".toUTF8),
    ("site.css", .file "@import \"windsmith\";\n@source \"./kit.html\";\n".toUTF8)], []⟩

theorem observes_requests_of_kitPages :
    let paths : ProjectPaths := ⟨⟨"site.css"⟩, none, none⟩
    let entries : List Path := [⟨"page.html"⟩, ⟨"./page.html"⟩]
    paths.locate kitPages = .ok onePlace ∧
      (answering kitPages onePlace Generator.manifest entries).candidates.items = ["flex", "grid"] ∧
      (answering kitPages onePlace Generator.manifest [⟨"page.html"⟩]).candidates.items =
        ["flex", "grid"] ∧
      otherKitPages.readBytes ⟨"/more.html"⟩ ≠ kitPages.readBytes ⟨"/more.html"⟩ ∧
      (answering otherKitPages onePlace Generator.manifest entries).reply =
        (answering kitPages onePlace Generator.manifest entries).reply := by
  intro paths entries
  have located : paths.locate kitPages = .ok onePlace := by decide +kernel
  have found : (answering kitPages onePlace Generator.manifest entries).candidates.items =
      ["flex", "grid"] := by decide +kernel
  have reads : (ProjectInputs.read kitPages onePlace).map
        (fun inputs => (inputs.themeFiles, inputs.selector.declaredFiles kitPages)) =
      .ok ([⟨"/site.css"⟩], [⟨"/kit.html"⟩]) := by decide +kernel
  obtain ⟨inputs, loaded, known⟩ := map_eq_ok.1 reads
  obtain ⟨themeFiles, declared⟩ := Prod.mk.inj known
  have observes : ObservesRequests kitPages paths onePlace inputs Generator.manifest :=
    observes_requests kitPages paths onePlace inputs Generator.manifest located loaded
  have asks (entries : List Path) (first : ⟨"page.html"⟩ ∈ entries)
      (all : ∀ entry ∈ entries, onePlace.page entry = ⟨"/page.html"⟩) (page : Path) :
      onePlace.Asks entries page ↔ page = ⟨"/page.html"⟩ := by
    constructor
    · rintro ⟨-, entry, member, rfl⟩
      exact all entry member
    · rintro rfl
      exact ⟨by decide +kernel, _, first, all _ first⟩
  have pages := asks entries List.mem_cons_self (by decide +kernel)
  have once := asks [⟨"page.html"⟩] List.mem_cons_self (by decide +kernel)
  have unordered := observes.unordered entries [⟨"page.html"⟩] fun page =>
    (pages page).trans (once page).symm
  have isolated := observes.isolated otherKitPages entries rfl (by
    intro path relevant
    rw [themeFiles, declared, pages] at relevant
    simp only [List.mem_singleton] at relevant
    rcases relevant with rfl | rfl | rfl <;> decide +kernel)
  exact ⟨located, found, unordered ▸ found, by decide +kernel, isolated.2⟩

end DevState

end UtilityCss
