import Mathlib.Data.List.Induction
import UtilityCss.Proofs.Project.ThemeFiles
import UtilityCss.Proofs.Session.Freshness
import UtilityCss.Proofs.Session.Reading
import UtilityCss.Proofs.Source.Stability

set_option autoImplicit false

namespace UtilityCss

open UtilityCss.Path FileTree

def ProjectInputs.Compiled (inputs : ProjectInputs) : Prop :=
  ∃ tree, SourceSelector.ofCatalog tree inputs.catalog = .ok inputs.selector

theorem ProjectInputs.compiled_of_read {tree : FileTree} {places : ProjectPlaces}
    {inputs : ProjectInputs} (loaded : ProjectInputs.read tree places = .ok inputs) :
    inputs.Compiled :=
  ⟨tree, (ProjectInputs.read_iff.1 loaded).selector⟩

theorem Candidate.exists_read_of_ofFile {tree : FileTree} {path : Path} {tokens : List String}
    (isFile : ofFile tree path = .ok tokens) (told : tokens ≠ []) :
    ∃ content, tree.readBytes path = .ok content := by
  unfold ofFile at isFile
  split at isFile
  · exact absurd (Except.ok.inj isFile).symm told
  · cases isFile
  · next content read => exact ⟨content, read⟩

namespace DevState

open LiveSession

variable {state : DevState} {places : ProjectPlaces} {step : DevStep} {path : Path}
  {names : List String}

structure Ready (places : ProjectPlaces) (state : DevState) : Prop where
  settled : state.session.Settled
  mode : state.session.mode = .dev
  places : state.session.places = places
  proper : state.tree.Proper
  inputs : ∃ inputs, state.session.inputs = some inputs ∧ inputs.Compiled

theorem inputs_perform (settled : state.session.Settled) (step : DevStep) :
    (state.perform step).session.inputs = match state.load? step with
      | some (.ok inputs) => some inputs
      | _ => state.session.inputs := by
  cases means : state.change? step with
  | none => rw [perform_of_no_change means, load?, means]; rfl
  | some change =>
    obtain ⟨entries, handles⟩ := perform_handles settled means
    rw [handles.inputs, load?, means, Option.bind_some]
    rcases change.load? state.tree state.session.places with _ | (error | inputs) <;> rfl

theorem change?_of_load? {load : Except BuildError ProjectInputs}
    (attempt : state.load? step = some load) : ∃ path, state.change? step = some (.theme path) ∧
      ProjectInputs.read state.tree state.session.places = load := by
  obtain ⟨change, means, loads⟩ := Option.bind_eq_some_iff.1 attempt
  cases change with
  | source path => cases loads
  | theme path => exact ⟨path, means, Option.some.inj loads⟩

theorem Ready.perform (ready : Ready places state)
    (proper : ∀ tree, step = .files tree → tree.Proper) : Ready places (state.perform step) := by
  have settled := settled_perform ready.settled step
  have same : (state.perform step).session.mode = .dev ∧
      (state.perform step).session.places = places := by
    cases means : state.change? step with
    | none =>
      rw [perform_of_no_change means]
      exact ⟨ready.mode, ready.places⟩
    | some change =>
      obtain ⟨entries, handles⟩ := perform_handles ready.settled means
      exact ⟨handles.mode.trans ready.mode, handles.places.trans ready.places⟩
  refine ⟨settled, same.1, same.2, ?_, ?_⟩
  · by_cases edit : ∃ tree, step = .files tree
    · obtain ⟨tree, rfl⟩ := edit
      exact proper tree rfl
    · rw [tree_perform fun tree same => edit ⟨tree, same⟩]
      exact ready.proper
  · rw [inputs_perform ready.settled]
    split
    · next inputs attempt =>
      obtain ⟨-, -, loaded⟩ := change?_of_load? attempt
      exact ⟨inputs, rfl, ProjectInputs.compiled_of_read loaded⟩
    · exact ready.inputs

theorem entries_handle (session : LiveSession) (settled : session.Settled) (tree : FileTree)
    (change : Change) : (session.handle tree change).2.entries = session.entries := by
  obtain ⟨after, equal, handles⟩ :=
    handle_spec session settled.rests settled.silent settled.keeps tree change
  rw [equal]
  exact handles.entries

theorem mem_entries_perform (settled : state.session.Settled)
    (member : path ∈ (state.perform step).session.entries) :
    path ∈ state.session.entries ∨ path ∈ state.reads step := by
  cases step with
  | files tree => exact .inl member
  | request entry =>
    simp only [perform, request] at member
    split_ifs at member with new
    · rw [entries_handle _ (settled_with_entries settled _)] at member
      have asked : state.reads (.request entry) = [state.session.entryOf entry] := by
        simp [reads, change?, new, Change.reads]
      rw [asked]
      exact List.mem_append.1 member
    · exact .inl member
  | notify path =>
    simp only [perform, notify] at member
    split at member
    · rw [entries_handle _ settled] at member
      exact .inl member
    · exact .inl member

theorem mem_declaredFiles_perform (ready : Ready places state) {inputs : ProjectInputs}
    (loaded : (state.perform step).session.inputs = some inputs)
    (member : path ∈ inputs.selector.declaredFiles state.tree) :
    path ∈ state.reads step ∨ ∃ before, state.session.inputs = some before ∧
      path ∈ before.selector.declaredFiles state.tree := by
  rw [inputs_perform ready.settled] at loaded
  split at loaded
  · next fresh attempt =>
    obtain rfl := Option.some.inj loaded
    obtain ⟨trigger, means, read⟩ := change?_of_load? attempt
    obtain ⟨before, isBefore, compiled⟩ := ready.inputs
    by_cases same : before.catalog.same fresh.catalog = true
    · obtain ⟨tree, compiled⟩ := compiled
      obtain ⟨other, again⟩ := ProjectInputs.compiled_of_read read
      have equal := (SourceSelector.declared_congr same compiled again).2
      exact .inr ⟨before, isBefore, by rwa [equal]⟩
    · left
      rw [reads, means]
      simp only [Change.reads, read, rescan, isBefore, Option.any_some, if_neg same, ready.mode]
      exact member
  · exact .inr ⟨inputs, loaded, member⟩

/-- The session has to know the file: it is a page that was asked for, or a declared source. -/
def Needs (state : DevState) (path : Path) : Prop :=
  path ∈ state.session.entries ∨ ∃ inputs, state.session.inputs = some inputs ∧
    path ∈ inputs.selector.declaredFiles state.tree

theorem tokens_of_not_knows (unknown : ¬ state.Knows path) :
    ∃ tokens, Candidate.ofFile state.tree path = .ok tokens ∧ tokens ≠ [] := by
  by_contra silent
  refine unknown fun tokens isFile token member => absurd ⟨tokens, isFile, ?_⟩ silent
  rintro rfl
  cases member

theorem isSome_contentAt?_of_ofFile {tree : FileTree} {tokens : List String}
    (areNames : ∀ name ∈ names, IsName name)
    (isFile : Candidate.ofFile tree (pathOf names) = .ok tokens) (told : tokens ≠ []) :
    (tree.contentAt? names).isSome := by
  obtain ⟨content, read⟩ := Candidate.exists_read_of_ofFile isFile told
  rw [file_of_readBytes areNames read, Option.isSome_some]

theorem needs_perform (ready : Ready places state) (areNames : ∀ name ∈ names, IsName name)
    (proper : ∀ tree, step = .files tree → tree.Proper)
    (same : Candidate.ofFile state.tree (pathOf names) =
      Candidate.ofFile (state.perform step).tree (pathOf names))
    (needs : (state.perform step).Needs (pathOf names)) :
    (state.perform step).Knows (pathOf names) ∨ state.Needs (pathOf names) := by
  by_cases edit : ∃ tree, step = .files tree
  · obtain ⟨tree, rfl⟩ := edit
    by_cases known : (state.perform (.files tree)).Knows (pathOf names)
    · exact .inl known
    obtain ⟨tokens, isFile, told⟩ := tokens_of_not_knows known
    have file := isSome_contentAt?_of_ofFile areNames (same.trans isFile) told
    refine .inr (needs.imp_right fun ⟨inputs, loaded, member⟩ => ⟨inputs, loaded, ?_⟩)
    obtain ⟨before, isBefore, source, compiled⟩ := ready.inputs
    obtain rfl := Option.some.inj (isBefore.symm.trans loaded)
    exact SourceSelector.mem_declaredFiles_of_file compiled (proper tree rfl) ready.proper file member
  · have still : (state.perform step).tree = state.tree :=
      tree_perform fun tree same => edit ⟨tree, same⟩
    rcases needs with asked | ⟨inputs, loaded, member⟩
    · rcases mem_entries_perform ready.settled asked with before | read
      · exact .inr (.inl before)
      · exact .inl (knows_of_mem_reads ready.settled read)
    · rw [still] at member
      rcases mem_declaredFiles_perform ready loaded member with read | before
      · exact .inl (knows_of_mem_reads ready.settled read)
      · exact .inr (.inr before)

theorem ofFile_of_isDirectory {tree : FileTree} (directory : tree.isDirectory path = true)
    (tokens : List String) : Candidate.ofFile tree path ≠ .ok tokens := by
  have fault : tree.readBytes path = .error .isDirectory := by
    unfold isDirectory at directory
    unfold readBytes
    split at directory
    · next found => rw [found]
    · cases directory
  simp [Candidate.ofFile, fault]

theorem knows_notified (ready : Ready places state) {notified : Path}
    (isPath : notified.normalize = path) (source : places.output.any path.same = false)
    (needs : (state.perform (.notify notified)).Needs path) :
    (state.perform (.notify notified)).Knows path ∨
      state.session.definesTheme path = true ∧ path ∉ state.reads (.notify notified) := by
  by_cases read : path ∈ state.reads (.notify notified)
  · exact .inl (knows_of_mem_reads ready.settled read)
  by_cases theme : state.session.definesTheme path = true
  · exact .inr ⟨theme, read⟩
  left
  have still : (state.perform (.notify notified)).tree = state.tree := tree_perform (by simp)
  by_cases directory : state.tree.isDirectory path = true
  · intro tokens isFile
    exact absurd (still ▸ isFile) (ofFile_of_isDirectory directory tokens)
  have meaning : state.change? (.notify notified) =
      if state.session.inputs.any (fun inputs => state.session.follows inputs path) then
        some (.source path) else none := by
    simp only [change?, meaningOf, isPath, ready.places, source, directory, theme, Bool.or_self,
      Bool.false_eq_true, if_false]
  obtain ⟨inputs, loaded, -⟩ := ready.inputs
  have followed : ¬ state.session.follows inputs path = true := fun follows =>
    read (by simp [reads, meaning, loaded, follows, Change.reads])
  have nothing : state.change? (.notify notified) = none := by
    rw [meaning, loaded, Option.any_some, if_neg followed]
  rw [Needs, perform_of_no_change nothing, still] at needs
  simp only [follows, ready.mode, Bool.or_eq_true, not_or] at followed
  rcases needs with asked | ⟨other, isOther, member⟩
  · exact absurd (List.any_eq_true.2 ⟨path, asked, same_refl path⟩) followed.1
  · obtain rfl := Option.some.inj (loaded.symm.trans isOther)
    exact absurd (SourceSelector.mem_of_mem_collect member).1 followed.2

/-- Each edit that changes what a file says is followed by the notification of the file. -/
def Announced (path : Path) (start : DevState) (steps : List DevStep) : Prop :=
  ∀ before tree after, steps = before ++ .files tree :: after →
    Candidate.ofFile (start.run before).tree path ≠ Candidate.ofFile tree path →
      ∃ notified rest, after = .notify notified :: rest ∧ notified.normalize = path

/-- An edit that changed what a file says was notified while the file belonged to the theme, and the
file was not read since. -/
def Overlooked (path : Path) (start : DevState) (steps : List DevStep) : Prop :=
  ∃ before tree notified after, steps = before ++ .files tree :: .notify notified :: after ∧
    Candidate.ofFile (start.run before).tree path ≠ Candidate.ofFile tree path ∧
    notified.normalize = path ∧
    (start.run (before ++ [.files tree])).session.definesTheme path = true ∧
    path ∉ (start.run (before ++ [.files tree])).readings (.notify notified :: after)

def Pending (path : Path) (start : DevState) (steps : List DevStep) : Prop :=
  ∃ before tree, steps = before ++ [.files tree] ∧
    Candidate.ofFile (start.run before).tree path ≠ Candidate.ofFile tree path

variable {start : DevState} {steps : List DevStep}

theorem readings_append (start : DevState) (steps later : List DevStep) :
    start.readings (steps ++ later) = start.readings steps ++ (start.run steps).readings later := by
  induction steps generalizing start with
  | nil => rfl
  | cons step steps ih =>
    rw [List.cons_append, readings, readings, ih, List.append_assoc]
    rfl

theorem Overlooked.concat (overlooked : Overlooked path start steps)
    (unread : path ∉ (start.run steps).reads step) : Overlooked path start (steps ++ [step]) := by
  obtain ⟨before, tree, notified, after, rfl, changed, isPath, theme, none⟩ := overlooked
  refine ⟨before, tree, notified, after ++ [step], by simp, changed, isPath, theme, ?_⟩
  rw [← List.cons_append, readings_append, List.mem_append, not_or]
  refine ⟨none, ?_⟩
  rw [← run_append, List.append_assoc, List.singleton_append]
  simpa [readings] using unread

theorem Ready.run (ready : Ready places start)
    (proper : ∀ tree, DevStep.files tree ∈ steps → tree.Proper) :
    Ready places (start.run steps) := by
  induction steps generalizing start with
  | nil => exact ready
  | cons step steps ih =>
    exact ih (ready.perform fun tree same => proper tree (by simp [same]))
      fun tree member => proper tree (List.mem_cons_of_mem step member)

theorem known_or_overlooked_of_prefix (ready : Ready places start)
    (proper : ∀ tree, DevStep.files tree ∈ steps → tree.Proper)
    (areNames : ∀ name ∈ names, IsName name)
    (source : places.output.any (pathOf names).same = false)
    (announced : Announced (pathOf names) start steps)
    (first : start.Needs (pathOf names) → start.Knows (pathOf names)) (before after : List DevStep)
    (whole : steps = before ++ after) (done : ¬ Pending (pathOf names) start before)
    (needs : (start.run before).Needs (pathOf names)) :
    (start.run before).Knows (pathOf names) ∨ Overlooked (pathOf names) start before := by
  induction before using List.reverseRecOn generalizing after with
  | nil => exact .inl (first needs)
  | append_singleton before step ih =>
    have reached : Ready places (start.run before) :=
      ready.run fun tree member => proper tree (by simp [whole, member])
    have onward : start.run (before ++ [step]) = (start.run before).perform step :=
      run_append start before [step]
    rw [onward] at needs ⊢
    by_cases pending : Pending (pathOf names) start before
    · -- The edit is followed by its notification.
      obtain ⟨earlier, tree, rfl, changed⟩ := pending
      obtain ⟨notified, rest, same, isPath⟩ :=
        announced earlier tree (step :: after) (by simp [whole]) changed
      obtain ⟨rfl, rfl⟩ := List.cons.inj same
      refine (knows_notified reached isPath source needs).imp_right fun ⟨theme, unread⟩ => ?_
      refine ⟨earlier, tree, notified, [], by simp, changed, isPath, theme, ?_⟩
      simpa [readings] using unread
    · have same : Candidate.ofFile (start.run before).tree (pathOf names) =
          Candidate.ofFile ((start.run before).perform step).tree (pathOf names) := by
        by_cases edit : ∃ tree, step = .files tree
        · obtain ⟨tree, rfl⟩ := edit
          by_contra changed
          exact done ⟨before, tree, rfl, changed⟩
        · rw [tree_perform fun tree same => edit ⟨tree, same⟩]
      have isProper : ∀ tree, step = .files tree → tree.Proper :=
        fun tree same => proper tree (by simp [whole, same])
      rcases needs_perform reached areNames isProper same needs with known | needed
      · exact .inl known
      rcases ih (step :: after) (by simp [whole]) pending needed with known | overlooked
      · exact .inl (known.perform reached.settled same.symm)
      · by_cases read : pathOf names ∈ (start.run before).reads step
        · exact .inl (knows_of_mem_reads reached.settled read)
        · exact .inr (overlooked.concat read)

variable {tree : FileTree} {generator : Generator} {inputs : ProjectInputs}

theorem ready_opened (proper : tree.Proper) (loaded : ProjectInputs.read tree places = .ok inputs) :
    Ready places (opened tree places generator) := by
  have start := loaded_opened tree places generator
  refine ⟨settled_opened tree places generator, start.mode, start.places, proper, inputs, ?_,
    ProjectInputs.compiled_of_read loaded⟩
  rw [start.inputs, loaded]
  rfl

theorem knows_opened (loaded : ProjectInputs.read tree places = .ok inputs)
    (needs : (opened tree places generator).Needs path) :
    (opened tree places generator).Knows path := by
  have handles := opened_handles tree places generator
  have found : (opened tree places generator).session.inputs = some inputs := by
    rw [(loaded_opened tree places generator).inputs, loaded]
    rfl
  have read := candidates_handle (fresh .dev places generator .none) Schedule.rests_idle tree
    (.theme places.input)
  simp only [Change.reads, fresh, loaded, rescan, Option.any_none, Bool.false_eq_true,
    if_false] at read
  intro tokens isFile token isToken
  rcases needs with asked | ⟨other, isOther, member⟩
  · rw [handles.entries] at asked
    cases asked
  · obtain rfl := Option.some.inj (found.symm.trans isOther)
    have same : (opened tree places generator).session.candidates = _ := read
    rw [same, CandidatePool.mem_merge]
    exact .inl (mem_candidates_ofFiles member isFile isToken)

/-- If each edit that changes what a file says is followed by its notification, a dev session knows
the file as it is now whenever it needs it, unless it was overlooked. -/
theorem known_unless_overlooked (tree : FileTree) (places : ProjectPlaces) (generator : Generator)
    (steps : List DevStep) (names : List String) (proper : tree.Proper)
    (properEdits : ∀ later, DevStep.files later ∈ steps → later.Proper)
    (loaded : ProjectInputs.read tree places = .ok inputs) (areNames : ∀ name ∈ names, IsName name)
    (source : places.output.any (pathOf names).same = false)
    (announced : Announced (pathOf names) (opened tree places generator) steps)
    (needs : ((opened tree places generator).run steps).Needs (pathOf names)) :
    ((opened tree places generator).run steps).Knows (pathOf names) ∨
      Overlooked (pathOf names) (opened tree places generator) steps := by
  refine known_or_overlooked_of_prefix (ready_opened proper loaded) properEdits areNames source
    announced (knows_opened loaded) steps [] (List.append_nil steps).symm ?_ needs
  rintro ⟨before, later, rfl, changed⟩
  obtain ⟨notified, rest, nothing, -⟩ := announced before later [] rfl changed
  cases nothing

-- The page has another candidate after the edit.
private def editedPage : FileTree :=
  ⟨[("page.html", .file "grid".toUTF8), ("site.css", .file "@import \"windsmith\";\n".toUTF8)], []⟩

private def editedRun : List DevStep :=
  [.request ⟨"page.html"⟩, .files editedPage, .notify ⟨"/page.html"⟩]

private theorem edit_of_editedRun {before after : List DevStep} {later : FileTree}
    (split : editedRun = before ++ .files later :: after) :
    before = [.request ⟨"page.html"⟩] ∧ later = editedPage ∧ after = [.notify ⟨"/page.html"⟩] := by
  match before with
  | [] => cases split
  | [first] =>
    cases split
    exact ⟨rfl, rfl, rfl⟩
  | first :: second :: rest =>
    obtain ⟨-, split⟩ := List.cons.inj split
    obtain ⟨-, split⟩ := List.cons.inj split
    match rest with
    | [] => cases split
    | third :: more =>
      obtain ⟨-, split⟩ := List.cons.inj split
      simp at split

theorem edited_page_known :
    let start := opened onePage onePlace Generator.manifest
    onePage.Proper ∧ editedPage.Proper ∧
      (∃ inputs, ProjectInputs.read onePage onePlace = .ok inputs) ∧
      Announced (pathOf ["page.html"]) start editedRun ∧
      (start.run editedRun).Needs (pathOf ["page.html"]) ∧
      (start.run editedRun).Knows (pathOf ["page.html"]) := by
  intro start
  have proper : onePage.Proper := by decide +kernel
  have properEdit : editedPage.Proper := by decide +kernel
  have announced : Announced (pathOf ["page.html"]) start editedRun := by
    intro before later after split _
    obtain ⟨-, -, rfl⟩ := edit_of_editedRun split
    exact ⟨_, [], rfl, by decide +kernel⟩
  have needs : (start.run editedRun).Needs (pathOf ["page.html"]) := .inl (by decide +kernel)
  have isRead : (ProjectInputs.read onePage onePlace).isOk = true := by decide +kernel
  cases loaded : ProjectInputs.read onePage onePlace with
  | error error => simp [loaded, Except.isOk, Except.toBool] at isRead
  | ok inputs =>
    refine ⟨proper, properEdit, ⟨inputs, rfl⟩, announced, needs, ?_⟩
    have properEdits : ∀ later, DevStep.files later ∈ editedRun → later.Proper := by
      intro later member
      obtain ⟨before, after, split⟩ := List.append_of_mem member
      obtain ⟨-, rfl, -⟩ := edit_of_editedRun split
      exact properEdit
    rcases known_unless_overlooked onePage onePlace Generator.manifest editedRun ["page.html"] proper
      properEdits loaded (by decide) rfl announced needs with known | overlooked
    · exact known
    · obtain ⟨before, later, notified, after, split, -, -, theme, -⟩ := overlooked
      obtain ⟨rfl, rfl, -⟩ := edit_of_editedRun split
      exact absurd theme (by decide +kernel)

end DevState

end UtilityCss
