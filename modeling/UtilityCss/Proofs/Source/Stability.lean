import UtilityCss.Proofs.Path.Join
import UtilityCss.Proofs.Source.DeclaredScan

set_option autoImplicit false

namespace UtilityCss

open Source UtilityCss.Path FileTree

namespace Source.Entry

def outline (entry : Entry) : String × Origin := (entry.glob, entry.origin)

theorem outline_of_same {entry other : Entry} (same : entry.same other = true) :
    entry.outline = other.outline := by
  rw [Entry.same, Bool.and_eq_true, Bool.and_eq_true, decide_eq_true_eq, decide_eq_true_eq] at same
  obtain ⟨⟨pattern, base⟩, origin⟩ := same
  rw [outline, outline, glob, glob, globBelow, globBelow, pattern, origin,
    normalize_join_of_same base]

end Source.Entry

namespace SourceSelector

variable {tree other : FileTree} {catalog second : SourceCatalog}
  {selector later : SourceSelector} {entries others : List Entry}

theorem outlines_of_same (same : catalog.same second = true) :
    catalog.entries.map Entry.outline = second.entries.map Entry.outline := by
  rw [SourceCatalog.same, Bool.and_eq_true, decide_eq_true_eq] at same
  obtain ⟨length, all⟩ := same
  refine List.ext_getElem (by simpa using length) fun index first last => ?_
  rw [List.getElem_map, List.getElem_map]
  rw [List.length_map] at first last
  have pair : (catalog.entries[index], second.entries[index]) ∈
      catalog.entries.zip second.entries := by
    exact List.mem_iff_getElem.2 ⟨index, by rw [List.length_zip]; omega, List.getElem_zip⟩
  exact Entry.outline_of_same (List.all_eq_true.1 all _ pair)

theorem readGlobs_congr (same : entries.map Entry.glob = others.map Entry.glob) :
    readGlobs entries = readGlobs others := by
  induction entries generalizing others with
  | nil =>
    obtain rfl : others = [] := by simpa using same.symm
    rfl
  | cons entry rest ih =>
    cases others with
    | nil => cases same
    | cons other more =>
      obtain ⟨glob, tail⟩ := List.cons.inj same
      rw [readGlobs, readGlobs, glob, ih tail]

theorem globs_entriesOf (catalog : SourceCatalog) (origin : Origin) :
    (catalog.entriesOf origin).map Entry.glob =
      ((catalog.entries.map Entry.outline).filter fun outline => outline.2 = origin).map
        Prod.fst := by
  rw [SourceCatalog.entriesOf, List.filter_map, List.map_map]
  rfl

theorem firstOfGlob_congr (same : entries.map Entry.outline = others.map Entry.outline)
    (seen : List String) : (SourceCatalog.firstOfGlob seen entries).map Entry.outline =
      (SourceCatalog.firstOfGlob seen others).map Entry.outline := by
  induction entries generalizing others seen with
  | nil =>
    obtain rfl : others = [] := by simpa using same.symm
    rfl
  | cons entry rest ih =>
    cases others with
    | nil => cases same
    | cons other more =>
      obtain ⟨outline, tail⟩ := List.cons.inj same
      have glob : entry.glob = other.glob := congrArg Prod.fst outline
      rw [SourceCatalog.firstOfGlob, SourceCatalog.firstOfGlob, glob]
      split_ifs
      · exact ih tail seen
      · rw [List.map_cons, List.map_cons, outline, ih tail]

theorem sources_congr
    (same : catalog.entries.map Entry.outline = second.entries.map Entry.outline) :
    catalog.sources.map Entry.outline = second.sources.map Entry.outline := by
  have excluded : catalog.exclusions.map Entry.glob = second.exclusions.map Entry.glob := by
    rw [SourceCatalog.exclusions, SourceCatalog.exclusions, globs_entriesOf, globs_entriesOf, same]
  have included (entries : List Entry) :
      (entries.filter fun entry => entry.origin ≠ .negated).map Entry.outline =
        (entries.map Entry.outline).filter fun outline => outline.2 ≠ .negated := by
    rw [List.filter_map]
    rfl
  rw [SourceCatalog.sources, SourceCatalog.sources, excluded]
  exact firstOfGlob_congr (by rw [included, included, same]) _

theorem walksOf_congr
    (same : catalog.entries.map Entry.outline = second.entries.map Entry.outline) :
    walksOf catalog = walksOf second := by
  have walks (catalog : SourceCatalog) : catalog.sources.map walkFor =
      (catalog.sources.map Entry.outline).map fun outline =>
        SourceWalk.mk (fixedStart outline.1) (outline.2 = .default) := by
    rw [List.map_map]
    rfl
  rw [walksOf_eq, walksOf_eq, walks, walks, sources_congr same]

theorem declared_congr (same : catalog.same second = true)
    (compiled : ofCatalog tree catalog = .ok selector)
    (again : ofCatalog other second = .ok later) :
    selector.selectsDeclared = later.selectsDeclared ∧
      selector.declaredFiles = later.declaredFiles := by
  have outlines := outlines_of_same same
  have globs (origin : Origin) :
      readGlobs (catalog.entriesOf origin) = readGlobs (second.entriesOf origin) :=
    readGlobs_congr (by rw [globs_entriesOf, globs_entriesOf, outlines])
  obtain ⟨-, declared, excluded, -, walks, -⟩ := ofCatalog_eq_ok.1 compiled
  obtain ⟨-, declaredAgain, excludedAgain, -, walksAgain, -⟩ := ofCatalog_eq_ok.1 again
  have sameDeclared : selector.declared = later.declared := by
    rw [globs, declaredAgain, Except.ok.injEq] at declared
    exact declared.symm
  have sameExcluded : selector.excluded = later.excluded := by
    rw [SourceCatalog.exclusions, globs, ← SourceCatalog.exclusions, excludedAgain,
      Except.ok.injEq] at excluded
    exact excluded.symm
  have sameTest : selector.selectsDeclared = later.selectsDeclared := by
    funext path
    rw [selectsDeclared, selectsDeclared, sameDeclared, sameExcluded]
  refine ⟨sameTest, ?_⟩
  funext tree
  rw [declaredFiles, declaredFiles, sameTest, walks, walksAgain, walksOf_congr outlines]

theorem not_isAbsolute_fixedStart {pattern : String}
    (relative : (Path.mk pattern).isAbsolute = false) : (fixedStart pattern).isAbsolute = false := by
  have texts : ∀ text ∈ ((Path.mk pattern).components.takeWhile fun component =>
      !hasGlobMark component.text).map Component.text, (Path.mk text).isAbsolute = false := by
    refine List.forall_mem_map.2 fun component member => ?_
    exact not_isAbsolute_text relative ((List.takeWhile_prefix _).subset member)
  have root := not_isAbsolute_foldl_child (p := ⟨""⟩) rfl texts
  rw [List.foldl_map] at root
  simp only [fixedStart]
  split_ifs
  · cases above : Path.parent? _ with
    | none => exact root
    | some directory => exact not_isAbsolute_parent? root above
  · exact root

theorem exists_steps_of_fixedStart {pattern : String}
    (absolute : (fixedStart pattern).isAbsolute = true) :
    ∃ texts : List String, (∀ text ∈ texts, IsStep text) ∧ fixedStart pattern = pathOf texts := by
  have isAbsolute : (Path.mk pattern).isAbsolute = true := by
    by_contra relative
    simp [not_isAbsolute_fixedStart (by simpa using relative)] at absolute
  exact exists_fixedStart isAbsolute

theorem mem_declaredFiles_of_file {names : List String} {first last : FileTree}
    (compiled : ofCatalog tree catalog = .ok selector) (proper : first.Proper)
    (properLast : last.Proper) (file : (last.contentAt? names).isSome)
    (member : pathOf names ∈ selector.declaredFiles first) :
    pathOf names ∈ selector.declaredFiles last := by
  have compiles := compiles_of_ofCatalog compiled
  have roots : ∀ walk ∈ selector.walks.filter (fun walk => !walk.respectsIgnoreFiles),
      walk.root.isAbsolute = true →
        ∃ texts, (∀ text ∈ texts, IsStep text) ∧ walk.root = pathOf texts := by
    intro walk isWalk absolute
    have member := (List.mem_filter.1 isWalk).1
    rw [compiles.walks] at member
    obtain ⟨entry, -, rfl⟩ := mem_walksOf member
    rw [walkFor_root] at absolute ⊢
    exact exists_steps_of_fixedStart absolute
  obtain ⟨accepted, walk, isWalk, inside⟩ := mem_of_mem_collect member
  rw [declaredFiles, mem_collect_iff properLast roots file]
  refine ⟨accepted, walk, isWalk, ?_⟩
  have full : walk.respectsIgnoreFiles = false := by simpa using (List.mem_filter.1 isWalk).2
  rw [full] at inside ⊢
  obtain ⟨place, more, -, same, isFile⟩ := (Ignore.mem_full_walk proper).1 inside
  have isNames := properLast.isStep_of_file file
  have further := (List.forall_mem_append.1 (proper.isStep_of_file isFile)).2
  have absolute : walk.root.isAbsolute = true :=
    isAbsolute_of_foldl_child further (same ▸ isAbsolute_pathOf names)
  obtain ⟨texts, steps, root⟩ := roots walk isWalk absolute
  rw [root, foldl_child_pathOf steps further] at same
  have whole : names = texts ++ more :=
    eq_of_pathOf_eq isNames (List.forall_mem_append.2 ⟨steps, further⟩) same
  rw [root, Ignore.mem_full_walk_pathOf properLast steps file, startsWith_pathOf isNames steps, whole]
  exact List.prefix_append texts more

end SourceSelector

end UtilityCss
