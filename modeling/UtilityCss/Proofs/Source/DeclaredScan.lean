import UtilityCss.Proofs.Source.Selection

set_option autoImplicit false

namespace UtilityCss

open Source UtilityCss.Path FileTree

namespace SourceSelector

variable {tree : FileTree} {catalog : SourceCatalog} {selector : SourceSelector} {entry : Entry}
  {names texts : List String} {path : Path}

theorem mem_entriesOf {origin : Origin} :
    entry ∈ catalog.entriesOf origin ↔ entry ∈ catalog.entries ∧ entry.origin = origin := by
  simp [SourceCatalog.entriesOf]

theorem covers_congr {other : Entry} (same : entry.glob = other.glob) :
    Covers entry path ↔ Covers other path := by
  rw [Covers, Covers, same]

theorem startsWith_of_covers (covers : Covers entry path) :
    path.startsWith (fixedStart entry.glob) = true := by
  obtain ⟨glob, read, isMatch⟩ := covers
  exact startsWith_of_isMatch read (no_escape_globBelow entry.base entry.pattern) isMatch

theorem exists_root (absolute : entry.base.isAbsolute = true) :
    ∃ texts : List String, (∀ text ∈ texts, IsStep text) ∧
      fixedStart entry.glob = pathOf texts := by
  obtain ⟨rest, text⟩ := toList_globBelow absolute entry.pattern
  have isAbsolute : (Path.mk entry.glob).isAbsolute = true := by
    simp [isAbsolute, Entry.glob, text]
  exact exists_fixedStart isAbsolute

theorem not_default_iff (isSource : entry ∈ catalog.sources) :
    entry.origin ≠ .default ↔ entry.origin = .declared := by
  have notNegated := (mem_sources isSource).2
  cases found : entry.origin <;> simp_all

theorem walkFor_mem_walksOf (isSource : entry ∈ catalog.sources)
    (absolute : ∀ other ∈ catalog.sources, (other.origin = .default ↔ entry.origin = .default) →
      other.base.isAbsolute = true) : walkFor entry ∈ walksOf catalog := by
  obtain ⟨walk, isWalk, same⟩ := exists_walk isSource
  obtain ⟨other, otherSource, rfl⟩ := mem_walksOf isWalk
  obtain ⟨sameRoot, sameKind⟩ : (fixedStart entry.glob).same (fixedStart other.glob) = true ∧
      (entry.origin = .default ↔ other.origin = .default) := by
    simpa [SourceWalk.same] using same
  obtain ⟨texts, steps, start⟩ := exists_root (absolute entry isSource Iff.rfl)
  obtain ⟨others, further, otherStart⟩ := exists_root (absolute other otherSource sameKind.symm)
  rw [start, otherStart, same_pathOf steps further] at sameRoot
  have equal : walkFor entry = walkFor other := by
    simp only [walkFor, start, otherStart, sameRoot, sameKind]
  rwa [equal]

theorem exists_source_of_covers (included : entry ∈ catalog.entries)
    (origin : entry.origin ≠ .negated) (covers : Covers entry path)
    (kept : ∀ exclusion ∈ catalog.exclusions, ¬ Covers exclusion path) :
    ∃ source ∈ catalog.sources, source.glob = entry.glob :=
  exists_source included origin fun exclusion member same =>
    kept exclusion member ((covers_congr same).2 covers)

section Compiled

variable (proper : tree.Proper) (compiles : Compiles tree catalog selector)

include compiles

theorem selectsDeclared_iff_normalize : selector.selectsDeclared path = true ↔
    (∀ entry ∈ catalog.exclusions, ¬ Covers entry path.normalize) ∧
      (∃ entry ∈ catalog.entriesOf .declared, Covers entry path.normalize) ∧
        isBinary path.normalize = false := by
  rw [selectsDeclared, Bool.and_eq_true, Bool.and_eq_true, Bool.not_eq_true',
    Bool.not_eq_true', compiles.declared, Bool.eq_false_iff, ne_eq, compiles.excluded, and_assoc]
  simp

theorem selectsDeclared_iff (normal : path.normalize = path) :
    selector.selectsDeclared path = true ↔ (∀ entry ∈ catalog.exclusions, ¬ Covers entry path) ∧
      (∃ entry ∈ catalog.entriesOf .declared, Covers entry path) ∧ isBinary path = false := by
  rw [selectsDeclared_iff_normalize compiles, normal]

include proper

theorem mem_declaredFiles (member : path ∈ selector.declaredFiles tree) :
    selector.selectsDeclared path = true ∧ ∃ entry ∈ catalog.sources,
      entry.origin = .declared ∧ tree.HasFileBelow (fixedStart entry.glob) path := by
  obtain ⟨accepted, walk, isWalk, inside⟩ := mem_of_mem_collect member
  obtain ⟨isWalk, full⟩ := List.mem_filter.1 isWalk
  rw [Bool.not_eq_true'] at full
  rw [compiles.walks] at isWalk
  obtain ⟨entry, isSource, rfl⟩ := mem_walksOf isWalk
  rw [full, Ignore.mem_full_walk proper, walkFor_root] at inside
  refine ⟨accepted, entry, isSource, ?_, inside⟩
  exact (not_default_iff isSource).1 (by simpa using full)

theorem mem_declaredFiles_of_selected (file : (tree.contentAt? names).isSome)
    (apart : ∀ entry ∈ catalog.entriesOf .declared, ∀ other ∈ catalog.entriesOf .default,
      entry.glob ≠ other.glob)
    (accepted : selector.selectsDeclared (pathOf names) = true) :
    ∃ entry ∈ catalog.sources, entry.origin = .declared ∧
      (pathOf names).startsWith (fixedStart entry.glob) = true := by
  have normal : (pathOf names).normalize = pathOf names :=
    normalize_pathOf (proper.isName_of_file file)
  obtain ⟨kept, ⟨entry, isDeclared, covers⟩, -⟩ := (selectsDeclared_iff compiles normal).1 accepted
  obtain ⟨isEntry, origin⟩ := mem_entriesOf.1 isDeclared
  obtain ⟨source, isSource, same⟩ :=
    exists_source_of_covers isEntry (by simp [origin]) covers kept
  have sourceEntry := (mem_sources isSource).1
  -- No default entry stands in for the declared one.
  have notDefault : source.origin ≠ .default := fun isDefault =>
    apart entry isDeclared source (mem_entriesOf.2 ⟨sourceEntry, isDefault⟩) same.symm
  have declared : source.origin = .declared := (not_default_iff isSource).1 notDefault
  exact ⟨source, isSource, declared, startsWith_of_covers ((covers_congr same).2 covers)⟩

variable (absolute : ∀ entry ∈ catalog.entriesOf .declared, entry.base.isAbsolute = true)

include absolute

omit proper compiles in
theorem exists_root_of_source (isSource : entry ∈ catalog.sources)
    (declared : entry.origin = .declared) :
    ∃ texts : List String, (∀ text ∈ texts, IsStep text) ∧
      fixedStart entry.glob = pathOf texts :=
  exists_root (absolute entry (mem_entriesOf.2 ⟨(mem_sources isSource).1, declared⟩))

theorem mem_declaredFiles_iff (file : (tree.contentAt? names).isSome) :
    pathOf names ∈ selector.declaredFiles tree ↔
      selector.selectsDeclared (pathOf names) = true ∧
        ∃ entry ∈ catalog.sources, entry.origin = .declared ∧
          (pathOf names).startsWith (fixedStart entry.glob) = true := by
  have walks : ∀ walk ∈ selector.walks.filter (fun walk => !walk.respectsIgnoreFiles),
      ∃ entry ∈ catalog.sources, entry.origin = .declared ∧ walk = walkFor entry := by
    intro walk member
    obtain ⟨isWalk, full⟩ := List.mem_filter.1 member
    rw [compiles.walks] at isWalk
    obtain ⟨entry, isSource, rfl⟩ := mem_walksOf isWalk
    exact ⟨entry, isSource, (not_default_iff isSource).1 (by simpa using full), rfl⟩
  have reached {entry : Entry} (isSource : entry ∈ catalog.sources)
      (declared : entry.origin = .declared) :
      pathOf names ∈ Ignore.walk tree (walkFor entry).respectsIgnoreFiles (walkFor entry).root ↔
        (pathOf names).startsWith (fixedStart entry.glob) = true := by
    obtain ⟨texts, steps, root⟩ := exists_root_of_source absolute isSource declared
    have full : (walkFor entry).respectsIgnoreFiles = false := by simp [declared]
    rw [full, walkFor_root, root, Ignore.mem_full_walk_pathOf proper steps file]
  rw [declaredFiles, mem_collect_iff proper _ file]
  · refine and_congr_right fun _ => ⟨?_, ?_⟩
    · rintro ⟨walk, isWalk, found⟩
      obtain ⟨entry, isSource, declared, rfl⟩ := walks walk isWalk
      exact ⟨entry, isSource, declared, (reached isSource declared).1 found⟩
    · rintro ⟨entry, isSource, declared, starts⟩
      have isWalk : walkFor entry ∈ walksOf catalog := by
        refine walkFor_mem_walksOf isSource fun other otherSource sameKind => ?_
        have otherDeclared := (not_default_iff otherSource).1 fun isDefault => by
          simp [declared, isDefault] at sameKind
        exact absolute other (mem_entriesOf.2 ⟨(mem_sources otherSource).1, otherDeclared⟩)
      rw [← compiles.walks] at isWalk
      refine ⟨walkFor entry, List.mem_filter.2 ⟨isWalk, by simp [declared]⟩, ?_⟩
      exact (reached isSource declared).2 starts
  · intro walk isWalk _
    obtain ⟨entry, isSource, declared, rfl⟩ := walks walk isWalk
    simpa only [walkFor_root] using exists_root_of_source absolute isSource declared

end Compiled

/-- A scan of the declared sources finds, in order and each once, the files of the declared walks
that are declared, and all declared files if no declared pattern is that of a default entry. -/
theorem declaredFiles_complete (proper : tree.Proper)
    (compiled : ofCatalog tree catalog = .ok selector)
    (absolute : ∀ entry ∈ catalog.entriesOf .declared, entry.base.isAbsolute = true) :
    Increasing (selector.declaredFiles tree) ∧
    (∀ path ∈ selector.declaredFiles tree, selector.selectsDeclared path = true ∧
      ∃ entry ∈ catalog.sources, entry.origin = .declared ∧
        tree.HasFileBelow (fixedStart entry.glob) path) ∧
    (∀ names, (tree.contentAt? names).isSome → (pathOf names ∈ selector.declaredFiles tree ↔
      selector.selectsDeclared (pathOf names) = true ∧
        ∃ entry ∈ catalog.sources, entry.origin = .declared ∧
          (pathOf names).startsWith (fixedStart entry.glob) = true)) ∧
    ((∀ entry ∈ catalog.entriesOf .declared, ∀ other ∈ catalog.entriesOf .default,
        entry.glob ≠ other.glob) →
      ∀ names, (tree.contentAt? names).isSome → (pathOf names ∈ selector.declaredFiles tree ↔
        selector.selectsDeclared (pathOf names) = true ∧
          ∃ entry ∈ catalog.entriesOf .declared,
            (pathOf names).startsWith (fixedStart entry.glob) = true)) := by
  have compiles := compiles_of_ofCatalog compiled
  have ordered : Increasing (selector.declaredFiles tree) := increasing_collect _ _ _
  refine ⟨ordered, fun path => mem_declaredFiles proper compiles,
    fun names => mem_declaredFiles_iff proper compiles absolute, fun apart names file => ?_⟩
  rw [mem_declaredFiles_iff proper compiles absolute file]
  constructor
  · rintro ⟨accepted, entry, isSource, declared, starts⟩
    exact ⟨accepted, entry, mem_entriesOf.2 ⟨(mem_sources isSource).1, declared⟩, starts⟩
  · rintro ⟨accepted, -⟩
    exact ⟨accepted, mem_declaredFiles_of_selected proper compiles file apart accepted⟩

-- A project with one page outside of what it declares, and one that it excludes again.
private def shop : FileTree :=
  { entries := [("r", .directory
      [("dep", .directory [("b.html", .file ⟨#[]⟩), ("c.html", .file ⟨#[]⟩)]),
        ("e.html", .file ⟨#[]⟩)])]
    workingDirectory := [] }

private def shopSources : SourceCatalog :=
  ((SourceCatalog.ofProject ⟨"/r"⟩).declare "dep/*.html" ⟨"/r"⟩).exclude "dep/c.html" ⟨"/r"⟩

theorem shop_declares_page : shop.Proper ∧
    (∀ entry ∈ shopSources.entriesOf .declared, entry.base.isAbsolute = true) ∧
    ∃ selector, ofCatalog shop shopSources = .ok selector ∧
      pathOf ["r", "dep", "b.html"] ∈ selector.declaredFiles shop ∧
      pathOf ["r", "dep", "c.html"] ∉ selector.declaredFiles shop := by
  have proper : shop.Proper := by decide +kernel
  have absolute : ∀ entry ∈ shopSources.entriesOf .declared, entry.base.isAbsolute = true := by
    decide +kernel
  have first : (ofCatalog shop shopSources).toOption.map
      (·.selectsDeclared (pathOf ["r", "dep", "b.html"])) = some true := by decide +kernel
  have second : (ofCatalog shop shopSources).toOption.map
      (·.selectsDeclared (pathOf ["r", "dep", "c.html"])) = some false := by decide +kernel
  cases compiled : ofCatalog shop shopSources with
  | error error => simp [compiled, Except.toOption] at first
  | ok selector =>
    rw [compiled] at first second
    obtain ⟨-, -, -, law⟩ := declaredFiles_complete proper compiled absolute
    have complete := law (by decide +kernel)
    refine ⟨proper, absolute, selector, rfl, ?_, fun member => ?_⟩
    · exact (complete _ (by decide +kernel)).2 ⟨Option.some.inj first, by decide +kernel⟩
    · have accepted := ((complete _ (by decide +kernel)).1 member).1
      exact absurd (accepted.symm.trans (Option.some.inj second)) (by decide)

end SourceSelector

end UtilityCss
