import UtilityCss.Proofs.Ignore.Walk
import UtilityCss.Proofs.Path.Join
import UtilityCss.Proofs.Path.Order
import UtilityCss.Proofs.Result
import UtilityCss.Proofs.Source.FixedStart
import UtilityCss.Source.Selector

set_option autoImplicit false

namespace UtilityCss

open Source UtilityCss.Path FileTree

section KeepFirst

variable {α : Type} {same : α → α → Bool} {items : List α} {item : α}

-- Each item unless one that is the same came before it.
def keepFirst (same : α → α → Bool) (items : List α) : List α :=
  items.foldl (fun seen item => if seen.any (same item) then seen else seen ++ [item]) []

theorem keepFirst_concat (items : List α) (item : α) :
    keepFirst same (items ++ [item]) =
      if (keepFirst same items).any (same item) then keepFirst same items
      else keepFirst same items ++ [item] := by
  simp [keepFirst, List.foldl_append]

theorem mem_of_mem_keepFirst (member : item ∈ keepFirst same items) : item ∈ items := by
  induction items using List.reverseRecOn with
  | nil => exact member
  | append_singleton items last ih =>
    rw [keepFirst_concat] at member
    split_ifs at member
    · exact List.mem_append_left _ (ih member)
    · rcases List.mem_append.1 member with earlier | isLast
      · exact List.mem_append_left _ (ih earlier)
      · exact List.mem_append_right _ isLast

theorem exists_keepFirst (refl : ∀ item, same item item = true) (member : item ∈ items) :
    ∃ kept ∈ keepFirst same items, same item kept = true := by
  induction items using List.reverseRecOn with
  | nil => cases member
  | append_singleton items last ih =>
    have stays : ∀ kept ∈ keepFirst same items, kept ∈ keepFirst same (items ++ [last]) := by
      intro kept inside
      rw [keepFirst_concat]
      split_ifs
      · exact inside
      · exact List.mem_append_left _ inside
    rcases List.mem_append.1 member with earlier | isLast
    · obtain ⟨kept, inside, equal⟩ := ih earlier
      exact ⟨kept, stays kept inside, equal⟩
    · obtain rfl := List.mem_singleton.1 isLast
      by_cases seen : (keepFirst same items).any (same item) = true
      · obtain ⟨kept, inside, equal⟩ := List.any_eq_true.1 seen
        exact ⟨kept, stays kept inside, equal⟩
      · rw [keepFirst_concat, if_neg seen]
        exact ⟨item, by simp, refl item⟩

theorem pairwise_keepFirst (items : List α) :
    (keepFirst same items).Pairwise fun earlier later => same later earlier = false := by
  induction items using List.reverseRecOn with
  | nil => exact List.Pairwise.nil
  | append_singleton items last ih =>
    rw [keepFirst_concat]
    split_ifs with seen
    · exact ih
    · rw [List.pairwise_append]
      refine ⟨ih, List.pairwise_singleton _ _, fun earlier inside later isLast => ?_⟩
      obtain rfl := List.mem_singleton.1 isLast
      simpa using List.any_eq_false.1 (Bool.eq_false_iff.2 seen) earlier inside

end KeepFirst

theorem SourceCatalog.entriesOf_insert_of_ne {catalog : SourceCatalog} {entry : Entry}
    {origin : Origin} (other : entry.origin ≠ origin) :
    (catalog.insert entry).entriesOf origin = catalog.entriesOf origin := by
  unfold insert
  split_ifs
  · rfl
  · simp [entriesOf, other]

def SourceCatalog.ignoreFiles (tree : FileTree) (catalog : SourceCatalog) :
    List (Path × Ignore.RuleSet) :=
  (catalog.entriesOf .default).filterMap fun entry => SourceSelector.ignoreFile? tree entry.base

namespace SourceSelector

variable {tree : FileTree} {walks : List SourceWalk} {accepts : Path → Bool} {paths : List Path}
  {p q : Path}

theorem increasing_sort (distinct : paths.Pairwise fun p q => q.same p = false) :
    Increasing (Path.sort paths) := by
  have ordered : (Path.sort paths).Pairwise fun p q => (!q.lt p) = true := by
    apply List.pairwise_mergeSort
    · intro p q r first second
      simp only [Bool.not_eq_true', Bool.eq_false_iff] at first second ⊢
      intro less
      by_cases same : p.same q
      · exact second (by rwa [lt, same_iff.1 same, ← lt] at less)
      · exact second (lt_trans less (gt_of_not_lt (fun equal => same (same_comm.1 equal)) first))
    · intro p q
      simp only [Bool.or_eq_true, Bool.not_eq_true', Bool.eq_false_iff]
      by_contra both
      obtain ⟨first, second⟩ : q.lt p = true ∧ p.lt q = true := by simpa using both
      exact not_same_of_lt (lt_trans first second) (same_refl q)
  have different : (Path.sort paths).Pairwise fun p q => q.same p = false := by
    apply (List.mergeSort_perm paths _).symm.pairwise distinct
    intro p q apart
    rwa [Bool.eq_false_iff, ne_eq, same_comm, ← ne_eq, ← Bool.eq_false_iff] at apart
  refine (ordered.and different).imp fun {p q} both => ?_
  apply gt_of_not_lt
  · simp [both.2]
  · simpa using both.1

theorem distinctPaths_eq (paths : List Path) : distinctPaths paths = keepFirst Path.same paths := rfl

theorem increasing_collect (tree : FileTree) (walks : List SourceWalk) (accepts : Path → Bool) :
    Increasing (collect tree walks accepts) :=
  increasing_sort (distinctPaths_eq _ ▸ pairwise_keepFirst _)

theorem mem_walked : p ∈ walked tree walks ↔
    ∃ walk ∈ walks, p ∈ Ignore.walk tree walk.respectsIgnoreFiles walk.root :=
  List.mem_flatMap

theorem mem_of_mem_collect (member : p ∈ collect tree walks accepts) :
    accepts p = true ∧ ∃ walk ∈ walks, p ∈ Ignore.walk tree walk.respectsIgnoreFiles walk.root := by
  have found := List.mem_filter.1 (mem_of_mem_keepFirst (List.mem_mergeSort.1 member))
  exact ⟨found.2, mem_walked.1 found.1⟩

theorem exists_mem_collect {walk : SourceWalk} (accepted : accepts p = true) (isWalk : walk ∈ walks)
    (found : p ∈ Ignore.walk tree walk.respectsIgnoreFiles walk.root) :
    ∃ kept ∈ collect tree walks accepts, p.same kept = true := by
  have member : p ∈ (walked tree walks).filter accepts :=
    List.mem_filter.2 ⟨mem_walked.2 ⟨walk, isWalk, found⟩, accepted⟩
  obtain ⟨kept, inside, same⟩ := exists_keepFirst same_refl member
  exact ⟨kept, List.mem_mergeSort.2 inside, same⟩

theorem mem_collect_iff {names : List String} (proper : tree.Proper)
    (roots : ∀ walk ∈ walks, walk.root.isAbsolute = true →
      ∃ texts, (∀ text ∈ texts, IsStep text) ∧ walk.root = pathOf texts)
    (file : (tree.contentAt? names).isSome) :
    pathOf names ∈ collect tree walks accepts ↔ accepts (pathOf names) = true ∧
      ∃ walk ∈ walks, pathOf names ∈ Ignore.walk tree walk.respectsIgnoreFiles walk.root := by
  refine ⟨mem_of_mem_collect, fun ⟨accepted, walk, isWalk, found⟩ => ?_⟩
  obtain ⟨kept, inside, same⟩ := exists_mem_collect accepted isWalk found
  -- What was collected under another spelling is spelled in the same way.
  obtain ⟨-, other, isOther, inOther⟩ := mem_of_mem_collect inside
  obtain ⟨place, more, node, -, -, isFile, rfl, -⟩ := (Ignore.mem_walk proper _).1 inOther
  have further := (List.forall_mem_append.1 (proper.isStep_of_file isFile)).2
  have absolute : other.root.isAbsolute = true := by
    refine isAbsolute_of_foldl_child further (isAbsolute_iff.2 ?_)
    rw [Path.same, decide_eq_true_eq] at same
    rw [← same, ← isAbsolute_iff]
    exact isAbsolute_pathOf names
  obtain ⟨texts, steps, root⟩ := roots other isOther absolute
  rw [root, foldl_child_pathOf steps further] at same inside
  rw [same_pathOf (proper.isStep_of_file file) (List.forall_mem_append.2 ⟨steps, further⟩)] at same
  rwa [same]

section Answers

variable {selector : SourceSelector} {files : List (Path × Ignore.RuleSet)}

theorem ignoredBy?_eq_false_iff : ignoredBy? p files = some false ↔
    ∀ file ∈ files, p.startsWith file.1 = true →
      ∃ verdict, file.2.verdictAbove? p.spelling = some verdict ∧ verdict ≠ .ignored := by
  induction files with
  | nil => simp [ignoredBy?]
  | cons file rest ih =>
    obtain ⟨directory, rules⟩ := file
    rw [List.forall_mem_cons, ← ih, ignoredBy?]
    by_cases below : p.startsWith directory = true
    · rw [if_pos below]
      rcases rules.verdictAbove? p.spelling with _ | ⟨_ | _ | _⟩ <;> simp [below]
    · simp [below]

theorem isSome_ignoredBy? (answered : ∀ file ∈ files, p.startsWith file.1 = true →
    (file.2.verdictAbove? p.spelling).isSome) : (ignoredBy? p files).isSome := by
  induction files with
  | nil => rfl
  | cons file rest ih =>
    obtain ⟨directory, rules⟩ := file
    obtain ⟨here, others⟩ := List.forall_mem_cons.1 answered
    have later := ih others
    rw [ignoredBy?]
    by_cases below : p.startsWith directory = true
    · rw [if_pos below]
      obtain ⟨verdict, isVerdict⟩ := Option.isSome_iff_exists.1 (here below)
      rw [isVerdict]
      cases verdict with
      | ignored => rfl
      | undecided => exact later
      | included => exact later
    · rwa [if_neg below]

theorem ignoredBy?_singleton_eq_none_iff {file : Path × Ignore.RuleSet} :
    ignoredBy? p [file] = none ↔
      p.startsWith file.1 = true ∧ file.2.verdictAbove? p.spelling = none := by
  obtain ⟨directory, rules⟩ := file
  rw [ignoredBy?]
  by_cases below : p.startsWith directory = true
  · rw [if_pos below]
    rcases rules.verdictAbove? p.spelling with _ | ⟨_ | _ | _⟩ <;> simp [below, ignoredBy?]
  · simp [below, ignoredBy?]

theorem selects_eq_true_iff : selector.selects p = true ↔
    matchesAny selector.excluded p.normalize = false ∧
      (matchesAny selector.declared p.normalize = true ∧ isBinary p.normalize = false ∨
        matchesAny selector.declared p.normalize = false ∧
          matchesAny selector.defaults p.normalize = true ∧ isLeftOut p.normalize = false ∧
            selector.isIgnored? p.normalize = some false) := by
  rw [selects, decide_eq_true_eq, selects?]
  cases matchesAny selector.excluded p.normalize <;>
    cases matchesAny selector.declared p.normalize <;>
      cases matchesAny selector.defaults p.normalize <;>
        cases isLeftOut p.normalize <;> simp

theorem selects?_eq_none_iff : selector.selects? p = none ↔
    matchesAny selector.excluded p.normalize = false ∧
      matchesAny selector.declared p.normalize = false ∧
        matchesAny selector.defaults p.normalize = true ∧ isLeftOut p.normalize = false ∧
          selector.isIgnored? p.normalize = none := by
  rw [selects?]
  cases matchesAny selector.excluded p.normalize <;>
    cases matchesAny selector.declared p.normalize <;>
      cases matchesAny selector.defaults p.normalize <;>
        cases isLeftOut p.normalize <;> simp

theorem selects?_eq_selects (answered : selector.selects? p ≠ none) :
    selector.selects? p = some (selector.selects p) := by
  obtain ⟨answer, isAnswer⟩ := Option.ne_none_iff_exists'.1 answered
  rw [selects, isAnswer]
  cases answer <;> rfl

theorem files?_eq_some_iff {found : List Path} : selector.files? tree = some found ↔
    (∀ path ∈ walked tree selector.walks, selector.selects? path ≠ none) ∧
      found = selector.files tree := by
  rw [files?]
  split_ifs with all
  · have answered : ∀ path ∈ walked tree selector.walks, selector.selects? path ≠ none :=
      fun path member => Option.isSome_iff_ne_none.1 (List.all_eq_true.1 all path member)
    rw [and_iff_right answered, Option.some.injEq, eq_comm]
  · constructor
    · rintro ⟨⟩
    · rintro ⟨answered, -⟩
      exact absurd (List.all_eq_true.2 fun path member =>
        Option.isSome_iff_ne_none.2 (answered path member)) all

theorem files?_eq_none_iff : selector.files? tree = none ↔
    ∃ path ∈ walked tree selector.walks, selector.selects? path = none := by
  rw [files?]
  split_ifs with all
  · rw [List.all_eq_true] at all
    refine iff_of_false (by simp) ?_
    rintro ⟨path, member, refused⟩
    exact absurd refused (Option.isSome_iff_ne_none.1 (all path member))
  · simpa using all

end Answers

def Covers (entry : Entry) (p : Path) : Prop :=
  ∃ glob, Glob.read false entry.glob = .ok glob ∧ glob.isMatch p.spelling = true

theorem covers_root {names : List String} {name : String}
    (free : Glob.slash ∉ name.toList.flatMap Glob.charBytes) :
    Covers ⟨"**/*", ⟨"/"⟩, .default⟩ (pathOf (names ++ [name])) := by
  refine ⟨⟨[.between, .star]⟩, rfl, ?_⟩
  have last : [] ∈ Glob.leftAfterAll [.star] (name.toList.flatMap Glob.charBytes) :=
    Glob.mem_leftAfterAll_cons.2 ⟨[], Glob.nil_mem_tailsInName free, List.mem_singleton_self []⟩
  have whole : [] ∈ Glob.leftAfterAll [.between, .star]
      ((pathOf (names ++ [name])).spelling.toList.flatMap Glob.charBytes) := by
    refine Glob.mem_leftAfterAll_cons.2 ⟨_, ?_, last⟩
    rw [toList_pathOf_concat, List.flatMap_append]
    split_ifs with root
    · exact List.mem_cons_self
    · rw [toList_pathOf]
      exact List.mem_cons_of_mem _ (Glob.mem_tailsBehindSlash _ _)
  rw [← Glob.toUTF8_eq] at whole
  exact List.contains_iff_mem.2 whole

theorem matchesAny_iff {entries : List Entry} {globs : List Glob}
    (read : readGlobs entries = .ok globs) :
    matchesAny globs p = true ↔ ∃ entry ∈ entries, Covers entry p := by
  induction entries generalizing globs with
  | nil =>
    obtain rfl : [] = globs := Except.ok.inj read
    simp [matchesAny]
  | cons entry rest ih =>
    rw [readGlobs] at read
    cases first : Glob.read false entry.glob with
    | error fault => simp [first] at read
    | ok glob =>
      rw [first] at read
      obtain ⟨later, others, rfl⟩ := map_eq_ok.1 read
      have own : Covers entry p ↔ glob.isMatch p.spelling = true := by simp [Covers, first]
      have inner := ih others
      simp only [matchesAny, List.any_cons, Bool.or_eq_true, List.mem_cons, or_and_right,
        exists_or, exists_eq_left, own] at inner ⊢
      rw [inner]

structure Compiles (tree : FileTree) (catalog : SourceCatalog) (selector : SourceSelector) :
    Prop where
  defaults : ∀ p, matchesAny selector.defaults p = true ↔
    ∃ entry ∈ catalog.entriesOf .default, Covers entry p
  declared : ∀ p, matchesAny selector.declared p = true ↔
    ∃ entry ∈ catalog.entriesOf .declared, Covers entry p
  excluded : ∀ p, matchesAny selector.excluded p = true ↔
    ∃ entry ∈ catalog.exclusions, Covers entry p
  ignoreFiles : selector.ignoreFiles = catalog.ignoreFiles tree
  walks : selector.walks = walksOf catalog

theorem ofCatalog_eq_ok {catalog : SourceCatalog} {selector : SourceSelector} :
    ofCatalog tree catalog = .ok selector ↔
      readGlobs (catalog.entriesOf .default) = .ok selector.defaults ∧
      readGlobs (catalog.entriesOf .declared) = .ok selector.declared ∧
      readGlobs catalog.exclusions = .ok selector.excluded ∧
      selector.ignoreFiles =
        (catalog.entriesOf .default).filterMap (fun entry => ignoreFile? tree entry.base) ∧
      selector.walks = walksOf catalog ∧ selector.roots = catalog.roots := by
  constructor
  · intro compiled
    obtain ⟨globs, defaults, compiled⟩ := bind_eq_ok.1 compiled
    obtain ⟨others, declared, compiled⟩ := bind_eq_ok.1 compiled
    obtain ⟨last, excluded, compiled⟩ := bind_eq_ok.1 compiled
    obtain rfl := Except.ok.inj compiled
    exact ⟨defaults, declared, excluded, rfl, rfl, rfl⟩
  · rintro ⟨defaults, declared, excluded, ignoreFiles, walks, roots⟩
    cases selector
    dsimp only at defaults declared excluded ignoreFiles walks roots
    subst ignoreFiles walks roots
    simp only [ofCatalog, defaults, declared, excluded, bind, Except.bind, pure, Except.pure]

theorem compiles_of_ofCatalog {catalog : SourceCatalog} {selector : SourceSelector}
    (compiled : ofCatalog tree catalog = .ok selector) : Compiles tree catalog selector := by
  obtain ⟨defaults, declared, excluded, ignoreFiles, walks, -⟩ := ofCatalog_eq_ok.1 compiled
  exact ⟨fun p => matchesAny_iff defaults, fun p => matchesAny_iff declared,
    fun p => matchesAny_iff excluded, ignoreFiles, walks⟩

variable {catalog : SourceCatalog} {entry : Entry}

theorem mem_firstOfGlob {seen : List String} {entries : List Entry}
    (member : entry ∈ SourceCatalog.firstOfGlob seen entries) :
    entry ∈ entries ∧ entry.glob ∉ seen := by
  induction entries generalizing seen with
  | nil => cases member
  | cons first rest ih =>
    rw [SourceCatalog.firstOfGlob] at member
    split_ifs at member with known
    · exact (ih member).imp_left (List.mem_cons_of_mem first)
    · rcases List.mem_cons.1 member with rfl | later
      · exact ⟨List.mem_cons_self, known⟩
      · obtain ⟨inside, fresh⟩ := ih later
        exact ⟨List.mem_cons_of_mem first inside, fun old => fresh (List.mem_cons_of_mem _ old)⟩

theorem exists_firstOfGlob {seen : List String} {entries : List Entry} (member : entry ∈ entries)
    (fresh : entry.glob ∉ seen) :
    ∃ first ∈ SourceCatalog.firstOfGlob seen entries, first.glob = entry.glob := by
  induction entries generalizing seen with
  | nil => cases member
  | cons first rest ih =>
    rw [SourceCatalog.firstOfGlob]
    rcases List.mem_cons.1 member with rfl | later
    · rw [if_neg fresh]
      exact ⟨entry, List.mem_cons_self, rfl⟩
    · split_ifs with known
      · exact ih later fresh
      · by_cases same : first.glob = entry.glob
        · exact ⟨first, List.mem_cons_self, same⟩
        · have unseen : entry.glob ∉ first.glob :: seen := by
            simp [Ne.symm same, fresh]
          obtain ⟨source, inside, equal⟩ := ih later unseen
          exact ⟨source, List.mem_cons_of_mem _ inside, equal⟩

theorem mem_sources (member : entry ∈ catalog.sources) :
    entry ∈ catalog.entries ∧ entry.origin ≠ .negated := by
  simpa using List.mem_filter.1 (mem_firstOfGlob member).1

theorem exists_source (member : entry ∈ catalog.entries) (included : entry.origin ≠ .negated)
    (kept : ∀ exclusion ∈ catalog.exclusions, exclusion.glob ≠ entry.glob) :
    ∃ source ∈ catalog.sources, source.glob = entry.glob := by
  apply exists_firstOfGlob (List.mem_filter.2 ⟨member, by simpa using included⟩)
  rintro excluded
  obtain ⟨exclusion, isExclusion, same⟩ := List.mem_map.1 excluded
  exact kept exclusion isExclusion same

def walkFor (entry : Entry) : SourceWalk := ⟨fixedStart entry.glob, entry.origin = .default⟩

@[simp] theorem walkFor_root (entry : Entry) : (walkFor entry).root = fixedStart entry.glob := by
  simp only [walkFor]

@[simp] theorem walkFor_respects (entry : Entry) :
    (walkFor entry).respectsIgnoreFiles = decide (entry.origin = .default) := rfl

theorem walksOf_eq (catalog : SourceCatalog) :
    walksOf catalog = keepFirst SourceWalk.same (catalog.sources.map walkFor) := rfl

theorem mem_walksOf {walk : SourceWalk} (member : walk ∈ walksOf catalog) :
    ∃ entry ∈ catalog.sources, walk = walkFor entry := by
  rw [walksOf_eq] at member
  obtain ⟨entry, isSource, same⟩ := List.mem_map.1 (mem_of_mem_keepFirst member)
  exact ⟨entry, isSource, same.symm⟩

theorem exists_walk (member : entry ∈ catalog.sources) :
    ∃ walk ∈ walksOf catalog, (walkFor entry).same walk = true := by
  have refl (walk : SourceWalk) : walk.same walk = true := by simp [SourceWalk.same, same_refl]
  exact exists_keepFirst refl (List.mem_map_of_mem member)

end SourceSelector

end UtilityCss
