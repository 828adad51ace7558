import UtilityCss.Proofs.Ignore.Views
import UtilityCss.Proofs.Source.Selection

set_option autoImplicit false

namespace UtilityCss

open Source UtilityCss.Path FileTree Ignore

variable {p base : Path} {texts names place : List String} {set : RuleSet} {absolute : Bool}

theorem Path.exists_spelled (normal : p.normalize = p) :
    ∃ texts, (∀ text ∈ texts, IsStep text) ∧ p = spelled p.isAbsolute texts :=
  ⟨textsOf p.reading, (isReading_reading p).isStep, normal.symm.trans (normalize_eq p)⟩

namespace Ignore.RuleSet

theorem dropDot_spelled (steps : ∀ text ∈ texts, IsStep text) (absolute : Bool) :
    dropDot (spelled absolute texts).spelling.toList = (spelled absolute texts).spelling.toList := by
  by_cases spoken : (spelled absolute texts).spelling = ""
  · rw [spoken]
    rfl
  · exact dropDot_of_isSpelled ⟨absolute, texts, steps, rfl, spoken⟩

theorem toList_relativeOf_eq_seen (texts : List String) :
    (relativeOf texts).spelling.toList = (seen texts).toList := by
  rw [toList_relativeOf, toList_seen]

-- Without a directory a path loses nothing but the slash in front.
theorem relative_of_empty (directory : set.directory = "") (texts : List String) :
    set.relative (pathOf texts).spelling = seen texts := by
  have whole (path : List Char) : [].isPrefixOf? path = some path := by cases path <;> rfl
  rw [relative, dropDot_pathOf, directory, String.toList_empty, whole, toList_pathOf_relativeOf,
    toList_relativeOf_eq_seen, if_neg (by simp)]
  simp [List.isPrefixOf?]

theorem relative_pathOf_self (directory : set.directory = (pathOf place).spelling) :
    set.relative (pathOf place).spelling = "" := by
  have absolute : set.directory ≠ "." := by
    rw [directory]
    intro here
    simpa [toList_pathOf] using congrArg String.toList here
  have slash : '/' ∈ (pathOf place).spelling.toList := by simp [toList_pathOf]
  have whole : (pathOf place).spelling.toList.isPrefixOf? (pathOf place).spelling.toList = some [] :=
    List.isPrefixOf?_eq_some_iff_append_eq.2 (List.append_nil _)
  rw [relative, dropDot_pathOf, if_neg (by simp [absolute, slash]), directory, whole]
  rfl

-- Between two slashes in a row there would be an empty step.
theorem ne_append_of_steps (steps : ∀ text ∈ texts, IsStep text) (before rest : List Char) :
    (relativeOf texts).spelling.toList ≠ before ++ '/' :: '/' :: rest := by
  intro text
  have split := congrArg (Text.split '/') text
  have empty : Text.split '/' ('/' :: rest) = [] :: Text.split '/' rest :=
    Text.split_append_cons '/' [] rest
  rw [Text.split_append_cons, empty, split_relativeOf steps] at split
  have inside : [] ∈ if texts = [] then [[]] else texts.map String.toList :=
    split ▸ List.mem_append_right _ List.mem_cons_self
  split_ifs at inside with none
  · subst none
    simp [relativeOf] at text
  · obtain ⟨step, member, same⟩ := List.mem_map.1 inside
    exact (steps step member).toList_ne_nil same

theorem not_isAbsolute_relative (steps : ∀ text ∈ texts, IsStep text) :
    (Path.mk (set.relative (relativeOf texts).spelling)).isAbsolute = false := by
  have whole : dropDot (relativeOf texts).spelling.toList = (relativeOf texts).spelling.toList :=
    dropDot_spelled steps false
  rw [relative, whole]
  split_ifs
  · rw [toList_relativeOf_eq_seen, String.ofList_toList]
    exact not_isAbsolute_seen steps
  · split
    · next rest found =>
      have text := List.isPrefixOf?_eq_some_iff_append_eq.1 found
      rcases rest with _ | ⟨c, rest⟩
      · rfl
      · by_cases slash : c = '/'
        · subst slash
          rcases rest with _ | ⟨d, rest⟩
          · rfl
          · have other : d ≠ '/' := by
              rintro rfl
              exact ne_append_of_steps steps _ _ text.symm
            simp [Path.isAbsolute, List.isPrefixOf?, other]
        · simp [Path.isAbsolute, List.isPrefixOf?, Ne.symm slash, slash]
    · rw [toList_relativeOf_eq_seen, String.ofList_toList]
      exact not_isAbsolute_seen steps

theorem eq_empty_of_startsWith (steps : ∀ text ∈ texts, IsStep text)
    (relative : base.isAbsolute = false) (below : (pathOf texts).startsWith base = true) :
    base.spelling = "" := by
  rw [startsWith_iff, components_pathOf steps] at below
  rw [← components_eq_nil]
  by_contra spoken
  obtain ⟨first, rest, parts⟩ := List.exists_cons_of_ne_nil spoken
  rw [parts] at below
  obtain ⟨rfl, -⟩ := List.cons_prefix_cons.1 below
  have absolute : base.isAbsolute = true := isAbsolute_iff.2 (parts ▸ List.mem_cons_self)
  exact absurd (relative.symm.trans absolute) Bool.false_ne_true

theorem not_isAbsolute_relative_of_startsWith (steps : ∀ text ∈ texts, IsStep text)
    (form : base.isAbsolute = false ∨ base.normalize = base)
    (directory : set.directory = base.spelling) (below : (pathOf texts).startsWith base = true) :
    (Path.mk (set.relative (pathOf texts).spelling)).isAbsolute = false := by
  cases absolute : base.isAbsolute with
  | false =>
    rw [relative_of_empty (directory.trans (eq_empty_of_startsWith steps absolute below))]
    exact not_isAbsolute_seen steps
  | true =>
    obtain ⟨first, areSteps, same⟩ := exists_spelled (form.resolve_left (by simp [absolute]))
    rw [absolute] at same
    subst same
    obtain ⟨names, rfl⟩ := (startsWith_pathOf steps areSteps).1 below
    cases names with
    | nil => rw [List.append_nil, relative_pathOf_self directory]; rfl
    | cons name rest =>
      have further := (List.forall_mem_append.1 steps).2
      rw [relative_pathOf directory further (List.cons_ne_nil name rest)]
      exact not_isAbsolute_seen further

theorem isSome_verdictAbove? {path : String}
    (relative : (Path.mk (set.relative path)).isAbsolute = false) :
    (set.verdictAbove? path).isSome := by
  rw [verdictAbove?, relative]
  by_cases empty : set.rules.isEmpty = true
  · rw [if_pos empty]
    rfl
  · rw [if_neg empty, if_neg Bool.false_ne_true]
    rfl

end Ignore.RuleSet

namespace SourceSelector

variable {tree : FileTree} {catalog : SourceCatalog} {selector : SourceSelector}
  {path : Path} {file : Path × RuleSet}

/-- An ignore file that refuses no path: it has no rules, or the directory that it is for is
relative or in normal form. -/
def AnswersAll (file : Path × RuleSet) : Prop :=
  file.2.rules = [] ∨ file.1.isAbsolute = false ∨ file.1.normalize = file.1

instance (file : Path × RuleSet) : Decidable (AnswersAll file) :=
  inferInstanceAs (Decidable (_ ∨ _ ∨ _))

theorem directory_of_mem_ignoreFile? (isFile : file ∈ ignoreFile? tree base) :
    file.2.directory = file.1.spelling := by
  unfold ignoreFile? at isFile
  split at isFile
  · obtain rfl := Option.some.inj isFile
    rfl
  · cases isFile

theorem isSome_verdictAbove?_of_answersAll (answers : AnswersAll file)
    (directory : file.2.directory = file.1.spelling) (normal : path.normalize = path)
    (below : path.startsWith file.1 = true) : (file.2.verdictAbove? path.spelling).isSome := by
  obtain ⟨texts, steps, same⟩ := exists_spelled normal
  rcases answers with none | form
  · rw [RuleSet.verdictAbove?, none]
    rfl
  · apply RuleSet.isSome_verdictAbove?
    cases absolute : path.isAbsolute with
    | false =>
      rw [absolute] at same
      rw [same]
      exact RuleSet.not_isAbsolute_relative steps
    | true =>
      rw [absolute] at same
      rw [same] at below ⊢
      exact RuleSet.not_isAbsolute_relative_of_startsWith steps form directory below

theorem selects?_ne_none (compiles : Compiles tree catalog selector)
    (answers : ∀ file ∈ catalog.ignoreFiles tree, AnswersAll file) (path : Path) :
    selector.selects? path ≠ none := by
  intro refused
  obtain ⟨-, -, -, -, unanswered⟩ := selects?_eq_none_iff.1 refused
  refine Option.isSome_iff_ne_none.1 (isSome_ignoredBy? fun file member below => ?_) unanswered
  rw [compiles.ignoreFiles] at member
  obtain ⟨entry, -, isFile⟩ := List.mem_filterMap.1 member
  exact isSome_verdictAbove?_of_answersAll (answers file member)
    (directory_of_mem_ignoreFile? isFile) (normalize_normalize path) below

theorem files?_eq_some (compiles : Compiles tree catalog selector)
    (answers : ∀ file ∈ catalog.ignoreFiles tree, AnswersAll file) :
    selector.files? tree = some (selector.files tree) :=
  files?_eq_some_iff.2 ⟨fun path _ => selects?_ne_none compiles answers path, rfl⟩

theorem answersAll_of_normal (own : base.normalize = base) (isFile : file ∈ ignoreFile? tree base) :
    AnswersAll file := by
  unfold ignoreFile? at isFile
  split at isFile
  · next content read =>
    obtain rfl := Option.some.inj isFile
    obtain ⟨texts, steps, same⟩ := exists_spelled own
    have here : (RuleSet.ofFile base content).directory = base.spelling := by
      rw [RuleSet.ofFile, same, RuleSet.dropDot_spelled steps, String.ofList_toList]
    exact .inr (.inr (by rwa [here]))
  · cases isFile

theorem answersAll_ignoreFiles
    (normal : ∀ entry ∈ catalog.entriesOf .default, entry.base.normalize = entry.base) :
    ∀ file ∈ catalog.ignoreFiles tree, AnswersAll file := by
  intro file member
  obtain ⟨entry, isEntry, isFile⟩ := List.mem_filterMap.1 member
  exact answersAll_of_normal (normal entry isEntry) isFile

end SourceSelector

end UtilityCss
