import UtilityCss.Proofs.Ignore.SoleFile
import UtilityCss.Proofs.Source.DeclaredScan
import UtilityCss.Proofs.Source.Refusals

set_option autoImplicit false

namespace UtilityCss

open Source UtilityCss.Path FileTree Ignore

namespace SourceSelector

variable {tree : FileTree} {catalog : SourceCatalog} {selector : SourceSelector} {entry : Entry}
  {names texts : List String} {path : Path}

theorem isStep_gitignore : IsStep ".gitignore" :=
  (by decide : IsName ".gitignore").toIsStep

/-- The walk that an entry asks for gets to a file: nothing on the way is hidden from it. -/
def Reaches (tree : FileTree) (entry : Entry) (names : List String) : Prop :=
  ∃ place rest node, fixedStart entry.glob = pathOf place ∧ names = place ++ rest ∧
    tree.nodeAt? place = some node ∧
      hides (startRules tree (entry.origin = .default) place) (pathOf place) "" rest node = false

/-- The project's own ignore file is the only one, and the walk of the project starts beside it. -/
structure HasOwnRules (tree : FileTree) (entry : Entry) (place : List String) : Prop where
  isName : ∀ name ∈ place, IsName name
  base : entry.base = pathOf place
  start : fixedStart entry.glob = pathOf place
  sole : SoleIgnoreFile tree place
  good : ∀ content rest, tree.contentAt? (place ++ [".gitignore"]) = some content →
    (tree.contentAt? (place ++ rest)).isSome →
      (RuleSet.ofFile (pathOf place) content).IgnoresForGood rest

theorem HasOwnRules.isStep {place : List String} (own : HasOwnRules tree entry place) :
    ∀ name ∈ place, IsStep name := steps_of_names own.isName

section Walks

variable (proper : tree.Proper)
  (absolute : ∀ entry ∈ catalog.entries, entry.origin ≠ .negated → entry.base.isAbsolute = true)

include absolute

theorem exists_place (isSource : entry ∈ catalog.sources) :
    ∃ texts : List String, (∀ text ∈ texts, IsStep text) ∧ fixedStart entry.glob = pathOf texts :=
  exists_root (absolute entry (mem_sources isSource).1 (mem_sources isSource).2)

include proper

theorem exists_way (file : (tree.contentAt? names).isSome) (isSource : entry ∈ catalog.sources)
    (covers : Covers entry (pathOf names)) :
    ∃ place rest node, fixedStart entry.glob = pathOf place ∧ names = place ++ rest ∧
      tree.nodeAt? place = some node := by
  obtain ⟨texts, steps, root⟩ := exists_place absolute isSource
  have starts := startsWith_of_covers covers
  rw [root, startsWith_pathOf (proper.isStep_of_file file) steps] at starts
  obtain ⟨node, isNode⟩ :=
    Option.isSome_iff_exists.1 (nodeAt?_of_above (isSome_nodeAt? file) starts)
  obtain ⟨rest, whole⟩ := starts
  exact ⟨texts, rest, node, root, whole.symm, isNode⟩

theorem reaches_of_declared (file : (tree.contentAt? names).isSome)
    (isSource : entry ∈ catalog.sources) (declared : entry.origin = .declared)
    (covers : Covers entry (pathOf names)) : Reaches tree entry names := by
  obtain ⟨place, rest, node, root, whole, isNode⟩ :=
    exists_way proper absolute file isSource covers
  refine ⟨place, rest, node, root, whole, isNode, ?_⟩
  have full : startRules tree (entry.origin = .default) place = none := by
    simp [startRules, declared]
  rw [full, hides_none]

end Walks

section Compiled

variable (proper : tree.Proper) (compiles : Compiles tree catalog selector)

include compiles

theorem selects_iff_normalize : selector.selects path = true ↔
    (∀ entry ∈ catalog.exclusions, ¬ Covers entry path.normalize) ∧
      ((∃ entry ∈ catalog.entriesOf .declared, Covers entry path.normalize) ∧
          isBinary path.normalize = false ∨
        (¬ ∃ entry ∈ catalog.entriesOf .declared, Covers entry path.normalize) ∧
          (∃ entry ∈ catalog.entriesOf .default, Covers entry path.normalize) ∧
            isLeftOut path.normalize = false ∧
              selector.isIgnored? path.normalize = some false) := by
  have kept : (∀ entry ∈ catalog.exclusions, ¬ Covers entry path.normalize) ↔
      matchesAny selector.excluded path.normalize = false := by
    rw [← Bool.not_eq_true, compiles.excluded]
    simp
  rw [selects_eq_true_iff, kept, ← compiles.declared, ← compiles.defaults, Bool.not_eq_true]

theorem selects_iff (normal : path.normalize = path) :
    selector.selects path = true ↔ (∀ entry ∈ catalog.exclusions, ¬ Covers entry path) ∧
      ((∃ entry ∈ catalog.entriesOf .declared, Covers entry path) ∧ isBinary path = false ∨
        (¬ ∃ entry ∈ catalog.entriesOf .declared, Covers entry path) ∧
          (∃ entry ∈ catalog.entriesOf .default, Covers entry path) ∧ isLeftOut path = false ∧
            selector.isIgnored? path = some false) := by
  rw [selects_iff_normalize compiles, normal]

include proper

theorem hasFileBelow_of_mem_walked (member : path ∈ walked tree selector.walks) :
    ∃ entry ∈ catalog.sources, tree.HasFileBelow (fixedStart entry.glob) path := by
  obtain ⟨walk, isWalk, inside⟩ := mem_walked.1 member
  rw [compiles.walks] at isWalk
  obtain ⟨entry, isSource, rfl⟩ := mem_walksOf isWalk
  obtain ⟨place, names, node, located, -, file, same, -⟩ := (mem_walk proper _).1 inside
  rw [walkFor_root] at located same
  exact ⟨entry, isSource, place, names, located, same, file⟩

theorem hasFileBelow_of_mem_files (member : path ∈ selector.files tree) :
    selector.selects path = true ∧ ∃ entry ∈ catalog.sources,
      tree.HasFileBelow (fixedStart entry.glob) path := by
  obtain ⟨accepted, walk, isWalk, inside⟩ := mem_of_mem_collect member
  exact ⟨accepted, hasFileBelow_of_mem_walked proper compiles (mem_walked.2 ⟨walk, isWalk, inside⟩)⟩

variable (absolute : ∀ entry ∈ catalog.entries, entry.origin ≠ .negated →
  entry.base.isAbsolute = true)

include absolute

theorem mem_walked_iff_reaches (file : (tree.contentAt? names).isSome) :
    pathOf names ∈ walked tree selector.walks ↔ ∃ entry ∈ catalog.sources, Reaches tree entry names := by
  have inWalk {entry : Entry} (isSource : entry ∈ catalog.sources) :
      pathOf names ∈ walk tree (walkFor entry).respectsIgnoreFiles (walkFor entry).root ↔
        Reaches tree entry names := by
    obtain ⟨texts, steps, root⟩ := exists_place absolute isSource
    rw [walkFor_root, walkFor_respects, root, mem_walk_pathOf proper steps file, Reaches, root]
    constructor
    · rintro ⟨rest, node, whole, isNode, free⟩
      exact ⟨texts, rest, node, rfl, whole, isNode, free⟩
    · rintro ⟨place, rest, node, same, rfl, isNode, free⟩
      have placed := (List.forall_mem_append.1 (proper.isStep_of_file file)).1
      obtain rfl : texts = place := eq_of_pathOf_eq steps placed same
      exact ⟨rest, node, rfl, isNode, free⟩
  rw [mem_walked, compiles.walks]
  constructor
  · rintro ⟨walk, isWalk, found⟩
    obtain ⟨entry, isSource, rfl⟩ := mem_walksOf isWalk
    exact ⟨entry, isSource, (inWalk isSource).1 found⟩
  · rintro ⟨entry, isSource, reaches⟩
    refine ⟨walkFor entry, ?_, (inWalk isSource).2 reaches⟩
    exact walkFor_mem_walksOf isSource fun other isOther _ =>
      absolute other (mem_sources isOther).1 (mem_sources isOther).2

theorem mem_files_iff (file : (tree.contentAt? names).isSome) :
    pathOf names ∈ selector.files tree ↔ selector.selects (pathOf names) = true ∧
      ∃ entry ∈ catalog.sources, Reaches tree entry names := by
  rw [files, mem_collect_iff proper _ file, ← mem_walked,
    mem_walked_iff_reaches proper compiles absolute file]
  intro walk isWalk _
  rw [compiles.walks] at isWalk
  obtain ⟨entry, isSource, rfl⟩ := mem_walksOf isWalk
  simpa only [walkFor_root] using exists_place absolute isSource

theorem reaches_of_default (file : (tree.contentAt? names).isSome)
    (isSource : entry ∈ catalog.sources) (isDefault : entry.origin = .default) {place : List String}
    (own : HasOwnRules tree entry place) (covers : Covers entry (pathOf names))
    (kept : selector.isIgnored? (pathOf names) = some false) : Reaches tree entry names := by
  obtain ⟨start, rest, node, root, rfl, isNode⟩ := exists_way proper absolute file isSource covers
  have steps := proper.isStep_of_file file
  refine ⟨start, rest, node, root, rfl, isNode, ?_⟩
  obtain ⟨before, further⟩ := List.forall_mem_append.1 steps
  obtain rfl : start = place :=
    eq_of_pathOf_eq before own.isStep (root.symm.trans own.start)
  by_contra hidden
  rw [Bool.not_eq_false] at hidden
  obtain ⟨content, isContent⟩ := Option.isSome_iff_exists.1 file
  rw [contentAt?_eq_some, nodeAt?_append, isNode] at isContent
  simp only [isDefault, decide_true] at hidden
  obtain ⟨rules, outer, isRules, isOuter, above, ignored⟩ :=
    exists_ignored own.sole steps isNode isContent hidden
  have nonempty : rest ≠ [] := fun none => isOuter (List.prefix_nil.1 (none ▸ above))
  have verdict := RuleSet.verdictAbove?_of_relative (RuleSet.relative_pathOf
    (RuleSet.directory_ofFile start rules) further nonempty) further
  rw [RuleSet.verdictBelow_of_ignored further (own.good rules rest isRules file) isOuter above
    ignored] at verdict
  have isFile : ignoreFile? tree entry.base =
      some (pathOf start, RuleSet.ofFile (pathOf start) rules) := by
    rw [ignoreFile?, own.base, child_pathOf own.isStep isStep_gitignore,
      readBytes_pathOf proper isRules]
    simp only [RuleSet.directory_ofFile]
  have member : (pathOf start, RuleSet.ofFile (pathOf start) rules) ∈ selector.ignoreFiles := by
    rw [compiles.ignoreFiles]
    exact List.mem_filterMap.2 ⟨entry, mem_entriesOf.2 ⟨(mem_sources isSource).1, isDefault⟩, isFile⟩
  have below : (pathOf (start ++ rest)).startsWith (pathOf start) = true := by
    rw [startsWith_pathOf steps own.isStep]
    exact List.prefix_append start rest
  obtain ⟨other, isOther, decides⟩ := ignoredBy?_eq_false_iff.1 kept _ member below
  exact decides (Option.some.inj (isOther.symm.trans verdict))

end Compiled

theorem answersAll_of_hasOwnRules
    (own : ∀ entry ∈ catalog.entriesOf .default, ∃ place, HasOwnRules tree entry place) :
    ∀ file ∈ catalog.ignoreFiles tree, AnswersAll file := by
  refine answersAll_ignoreFiles fun entry member => ?_
  obtain ⟨place, rules⟩ := own entry member
  rw [rules.base]
  exact normalize_pathOf rules.isName

theorem mem_files_iff_selects (proper : tree.Proper) (compiles : Compiles tree catalog selector)
    (absolute : ∀ entry ∈ catalog.entries, entry.origin ≠ .negated → entry.base.isAbsolute = true)
    (apart : ∀ entry ∈ catalog.entriesOf .declared, ∀ other ∈ catalog.entriesOf .default,
      entry.glob ≠ other.glob)
    (own : ∀ entry ∈ catalog.entriesOf .default, ∃ place, HasOwnRules tree entry place)
    (file : (tree.contentAt? names).isSome) :
    pathOf names ∈ selector.files tree ↔ selector.selects (pathOf names) = true := by
  rw [mem_files_iff proper compiles absolute file, and_iff_left_iff_imp]
  intro accepted
  have normal := normalize_pathOf (proper.isName_of_file file)
  obtain ⟨kept, found⟩ := (selects_iff compiles normal).1 accepted
  have source {entry : Entry} (included : entry ∈ catalog.entries) (origin : entry.origin ≠ .negated)
      (covers : Covers entry (pathOf names)) :
      ∃ source ∈ catalog.sources, source.glob = entry.glob ∧ Covers source (pathOf names) := by
    obtain ⟨source, isSource, same⟩ := exists_source_of_covers included origin covers kept
    exact ⟨source, isSource, same, (covers_congr same).2 covers⟩
  rcases found with ⟨⟨entry, isDeclared, covers⟩, -⟩ | ⟨-, ⟨entry, isDefault, covers⟩, -, notIgnored⟩
  · obtain ⟨included, origin⟩ := mem_entriesOf.1 isDeclared
    obtain ⟨other, isSource, same, covers⟩ := source included (by simp [origin]) covers
    have declared : other.origin = .declared := (not_default_iff isSource).1 fun otherDefault =>
      apart entry isDeclared other (mem_entriesOf.2 ⟨(mem_sources isSource).1, otherDefault⟩)
        same.symm
    exact ⟨other, isSource, reaches_of_declared proper absolute file isSource declared covers⟩
  · obtain ⟨included, origin⟩ := mem_entriesOf.1 isDefault
    obtain ⟨other, isSource, same, covers⟩ := source included (by simp [origin]) covers
    refine ⟨other, isSource, ?_⟩
    by_cases kind : other.origin = .default
    · obtain ⟨place, rules⟩ := own other (mem_entriesOf.2 ⟨(mem_sources isSource).1, kind⟩)
      exact reaches_of_default proper compiles absolute file isSource kind rules covers notIgnored
    · exact reaches_of_declared proper absolute file isSource ((not_default_iff isSource).1 kind)
        covers

-- A project with an ignore file that names every log.
private def yard : FileTree :=
  { entries := [("r", .directory
      [(".gitignore", .file "*.log\n".toUTF8), ("a.html", .file ⟨#[]⟩), ("b.log", .file ⟨#[]⟩)])]
    workingDirectory := [] }

private def yardSources : SourceCatalog := SourceCatalog.ofProject ⟨"/r"⟩

private theorem yard_hasOwnRules :
    ∀ entry ∈ yardSources.entriesOf .default, HasOwnRules yard entry ["r"] := by
  have only : yardSources.entriesOf .default = [⟨"**/*", ⟨"/r"⟩, .default⟩] := by decide +kernel
  rw [only, List.forall_mem_singleton]
  refine ⟨by decide, by decide, by decide +kernel, ?_, fun content rest isContent _ => ?_⟩
  · unfold SoleIgnoreFile
    decide +kernel
  · have plain : (yard.contentAt? ["r", ".gitignore"]).all (fun content =>
        (RuleSet.ofFile (pathOf ["r"]) content).rules.all (!·.negated)) = true := by decide +kernel
    rw [List.singleton_append] at isContent
    rw [isContent, Option.all_some, List.all_eq_true] at plain
    refine RuleSet.ignoresForGood_of_not_negated (fun rule member => ?_) _
    simpa using plain rule member

-- The same directory with a dot in its spelling: a file below it still starts at the root for rules.
example : (ofCatalog yard (SourceCatalog.ofProject ⟨"/r/."⟩)).toOption.map
    (fun selector => (selector.selects? (pathOf ["r", "a.html"]), selector.files? yard)) =
      some (none, none) := by decide +kernel

end SourceSelector

end UtilityCss
