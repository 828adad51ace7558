import UtilityCss.Proofs.Path.Location
import UtilityCss.Proofs.Session.Rereading

set_option autoImplicit false

namespace UtilityCss

open UtilityCss.Path FileTree

def Candidate.IsIn (tree : FileTree) (path : Path) (token : String) : Prop :=
  ∃ tokens, Candidate.ofFile tree path = .ok tokens ∧ token ∈ tokens

theorem Candidate.mem_ofFiles_iff {tree : FileTree} {paths : List Path} {token : String} :
    token ∈ (Candidate.ofFiles tree paths).candidates ↔ ∃ path ∈ paths, IsIn tree path token := by
  simp only [ofFiles, Ordered.mem_ofList, List.mem_flatMap, List.mem_map, exists_exists_and_eq_and]
  constructor
  · rintro ⟨path, member, told⟩
    cases read : Candidate.ofFile tree path with
    | error error => simp [read] at told
    | ok tokens => exact ⟨path, member, tokens, read, by simpa [read] using told⟩
  · rintro ⟨path, member, tokens, read, told⟩
    exact ⟨path, member, by simpa [read] using told⟩

theorem Candidate.IsIn.exists_read {tree : FileTree} {path : Path} {token : String}
    (isIn : IsIn tree path token) : ∃ content, tree.readBytes path = .ok content := by
  obtain ⟨tokens, isFile, told⟩ := isIn
  exact exists_read_of_ofFile isFile (List.ne_nil_of_mem told)

def ProjectPlaces.page (places : ProjectPlaces) (entry : Path) : Path :=
  (places.root.join entry).normalize

theorem ProjectPlaces.page_eq_of_same {places : ProjectPlaces}
    (absolute : places.root.isAbsolute = true) {entry other : Path}
    (same : (places.page entry).same (places.page other) = true) :
    places.page entry = places.page other :=
  normalize_eq_of_same (Source.isAbsolute_join absolute) (Source.isAbsolute_join absolute) same

def ProjectPlaces.Asks (places : ProjectPlaces) (entries : List Path) (page : Path) : Prop :=
  page.same places.input = false ∧ ∃ entry ∈ entries, places.page entry = page

namespace DevState

open LiveSession

variable {tree : FileTree} {places : ProjectPlaces} {generator : Generator}
  {inputs : ProjectInputs} {entries : List Path} {state : DevState} {page : Path}

structure Asked (tree : FileTree) (places : ProjectPlaces) (inputs : ProjectInputs)
    (entries : List Path) (state : DevState) : Prop where
  settled : state.session.Settled
  still : state.tree = tree
  located : state.session.places = places
  loaded : state.session.inputs = some inputs
  pages : ∀ page, page ∈ state.session.entries ↔ places.Asks entries page
  increasing : Ordered.Increasing state.session.candidates.items
  candidates : ∀ token, token ∈ state.session.candidates.items ↔
    ∃ path, (path ∈ inputs.selector.declaredFiles tree ∨ places.Asks entries path) ∧
      Candidate.IsIn tree path token

theorem asked_opened (generator : Generator) (loaded : ProjectInputs.read tree places = .ok inputs) :
    Asked tree places inputs [] (opened tree places generator) := by
  have handles := opened_handles tree places generator
  have first : (opened tree places generator).session.candidates = CandidatePool.empty.merge
      (Candidate.ofFiles tree (inputs.selector.declaredFiles tree)).candidates := by
    rw [opened, start, candidates_handle _ (settled_fresh places generator).rests]
    simp only [Change.reads, fresh, loaded, rescan]
    rfl
  refine ⟨settled_opened tree places generator, rfl, handles.places, ?_, ?_, ?_, ?_⟩
  · rw [handles.inputs]
    simp only [Change.load?, fresh, loaded]
    rfl
  · rw [handles.entries]
    simp [fresh, ProjectPlaces.Asks]
  · exact first ▸ CandidatePool.increasing_merge CandidatePool.increasing_empty _
  · intro token
    rw [first, CandidatePool.mem_merge, Candidate.mem_ofFiles_iff]
    simp [CandidatePool.empty, ProjectPlaces.Asks]

theorem places_perform (settled : state.session.Settled) (step : DevStep) :
    (state.perform step).session.places = state.session.places := by
  cases means : state.change? step with
  | none => rw [perform_of_no_change means]
  | some change =>
    obtain ⟨entries, handles⟩ := perform_handles settled means
    exact handles.places

theorem inputs_request (settled : state.session.Settled) (entry : Path) :
    (state.perform (.request entry)).session.inputs = state.session.inputs := by
  have load : state.load? (.request entry) = none := by
    simp only [load?, change?]
    split_ifs <;> rfl
  rw [inputs_perform settled, load]

theorem reads_request (state : DevState) (entry : Path) :
    state.reads (.request entry) =
      if state.session.isNewEntry (state.session.entryOf entry) then [state.session.entryOf entry]
      else [] := by
  simp only [reads, change?]
  split_ifs <;> rfl

theorem entries_request (settled : state.session.Settled) (entry : Path) :
    (state.perform (.request entry)).session.entries =
      state.session.entries ++ state.reads (.request entry) := by
  rw [reads_request]
  simp only [perform, LiveSession.request]
  split_ifs
  · rw [entries_handle _ (settled_with_entries settled _)]
  · exact (List.append_nil _).symm

-- A page that is not new is the input, or it was asked for before and in the same spelling.
theorem Asked.isNewEntry_iff (asked : Asked tree places inputs entries state)
    (absolute : places.root.isAbsolute = true) (entry : Path) :
    state.session.isNewEntry (places.page entry) = true ↔
      (places.page entry).same places.input = false ∧ ¬ places.Asks entries (places.page entry) := by
  rw [isNewEntry, asked.located, Bool.and_eq_true, Bool.not_eq_true', Bool.not_eq_true',
    List.any_eq_false, ← asked.pages]
  refine and_congr_right fun _ => ⟨fun fresh member => fresh _ member (same_refl _), ?_⟩
  intro absent other member same
  obtain ⟨-, earlier, -, rfl⟩ := (asked.pages other).1 member
  exact absent (ProjectPlaces.page_eq_of_same absolute same ▸ member)

theorem Asked.asks_iff (asked : Asked tree places inputs entries state)
    (absolute : places.root.isAbsolute = true) (entry : Path) :
    places.Asks (entries ++ [entry]) page ↔
      places.Asks entries page ∨ page ∈ state.reads (.request entry) := by
  have named : state.session.entryOf entry = places.page entry := by
    rw [entryOf, asked.located, ProjectPlaces.page]
  have isNew := asked.isNewEntry_iff absolute entry
  rw [reads_request, named]
  constructor
  · rintro ⟨other, earlier, member, rfl⟩
    rcases List.mem_append.1 member with before | last
    · exact .inl ⟨other, earlier, before, rfl⟩
    · rw [List.mem_singleton.1 last] at other ⊢
      -- It is read now if it was not asked for before.
      by_cases known : places.Asks entries (places.page entry)
      · exact .inl known
      · rw [if_pos (isNew.2 ⟨other, known⟩)]
        exact .inr (List.mem_singleton_self _)
  · rintro (⟨other, earlier, member, same⟩ | read)
    · exact ⟨other, earlier, List.mem_append_left _ member, same⟩
    · split_ifs at read with new
      · rw [List.mem_singleton.1 read]
        exact ⟨(isNew.1 new).1, entry, by simp, rfl⟩
      · cases read

theorem Asked.request (asked : Asked tree places inputs entries state)
    (absolute : places.root.isAbsolute = true) (entry : Path) :
    Asked tree places inputs (entries ++ [entry]) (state.perform (.request entry)) := by
  have read := candidates_perform asked.settled (.request entry)
  rw [asked.still] at read
  refine ⟨settled_perform asked.settled _, ?_, ?_, ?_, fun page => ?_, ?_, fun token => ?_⟩
  · exact (tree_perform fun _ => DevStep.noConfusion).trans asked.still
  · exact (places_perform asked.settled _).trans asked.located
  · exact (inputs_request asked.settled entry).trans asked.loaded
  · rw [entries_request asked.settled, List.mem_append, asked.pages, asked.asks_iff absolute]
  · exact read ▸ CandidatePool.increasing_merge asked.increasing _
  · rw [read, CandidatePool.mem_merge, Candidate.mem_ofFiles_iff, asked.candidates]
    simp only [asked.asks_iff absolute, or_and_right, exists_or]
    rw [or_comm, or_assoc]

theorem run_cons (state : DevState) (step : DevStep) (steps : List DevStep) :
    state.run (step :: steps) = (state.perform step).run steps := rfl

theorem Asked.requests (asked : Asked tree places inputs entries state)
    (absolute : places.root.isAbsolute = true) (more : List Path) :
    Asked tree places inputs (entries ++ more) (state.run (more.map .request)) := by
  induction more generalizing entries state with
  | nil =>
    rw [List.append_nil]
    exact asked
  | cons entry rest ih =>
    rw [List.append_cons, List.map_cons, run_cons]
    exact ih (asked.request absolute entry)

end DevState

end UtilityCss
