import UtilityCss.Proofs.Source.Agreement

set_option autoImplicit false

namespace UtilityCss

open Source UtilityCss.Path FileTree

theorem Path.startsWith_trans {p q r : Path} (first : p.startsWith q = true)
    (second : q.startsWith r = true) : p.startsWith r = true :=
  startsWith_iff.2 ((startsWith_iff.1 second).trans (startsWith_iff.1 first))

namespace SourceCatalog

variable {catalog : SourceCatalog} {roots paths : List Path}

structure Encloses (roots paths : List Path) : Prop where
  apart : roots.Pairwise fun root other =>
    ¬ root.startsWith other = true ∧ ¬ other.startsWith root = true
  chosen : ∀ root ∈ roots, root ∈ paths
  covers : ∀ path ∈ paths, ∃ root ∈ roots, path.startsWith root = true

theorem encloses_nil : Encloses [] [] :=
  ⟨List.Pairwise.nil, by simp, by simp⟩

theorem Encloses.addRoot (encloses : Encloses roots paths) (root : Path) :
    Encloses (addRoot roots root) (paths ++ [root]) := by
  obtain ⟨apart, chosen, covers⟩ := encloses
  rw [SourceCatalog.addRoot]
  split_ifs with covered
  · refine ⟨apart, fun other member => List.mem_append_left _ (chosen other member), ?_⟩
    intro path member
    rcases List.mem_append.1 member with earlier | isRoot
    · exact covers path earlier
    · rw [List.mem_singleton.1 isRoot]
      exact List.any_eq_true.1 covered
  · have uncovered : ∀ other ∈ roots, ¬ root.startsWith other = true := by
      simpa using covered
    constructor
    · rw [List.pairwise_append]
      refine ⟨apart.filter _, List.pairwise_singleton _ _, fun other member last isRoot => ?_⟩
      obtain ⟨inside, notBelow⟩ := List.mem_filter.1 member
      rw [List.mem_singleton.1 isRoot]
      exact ⟨by simpa using notBelow, uncovered other inside⟩
    · intro other member
      rcases List.mem_append.1 member with earlier | isRoot
      · exact List.mem_append_left _ (chosen other (List.mem_filter.1 earlier).1)
      · exact List.mem_append_right _ isRoot
    · intro path member
      have last : root ∈ (roots.filter fun other => !other.startsWith root) ++ [root] := by simp
      rcases List.mem_append.1 member with earlier | isRoot
      · obtain ⟨other, inside, below⟩ := covers path earlier
        -- What a dropped root covers is covered by the one that replaces it.
        by_cases dropped : other.startsWith root = true
        · exact ⟨root, last, startsWith_trans below dropped⟩
        · exact ⟨other, List.mem_append_left _ (List.mem_filter.2 ⟨inside, by simpa using dropped⟩),
            below⟩
      · rw [List.mem_singleton.1 isRoot]
        exact ⟨root, last, startsWith_iff.2 (List.prefix_refl _)⟩

theorem encloses_foldl (paths : List Path) : Encloses (paths.foldl addRoot []) paths := by
  induction paths using List.reverseRecOn with
  | nil => exact encloses_nil
  | append_singleton paths last ih =>
    rw [List.foldl_append, List.foldl_cons, List.foldl_nil]
    exact ih.addRoot last

theorem encloses_roots (catalog : SourceCatalog) :
    Encloses catalog.roots (catalog.sources.map fun entry => fixedStart entry.glob) :=
  encloses_foldl _

end SourceCatalog

namespace SourceSelector

variable {tree : FileTree} {catalog : SourceCatalog} {selector : SourceSelector} {path : Path}

theorem exists_covers_of_selects (compiles : Compiles tree catalog selector)
    (accepted : selector.selects path = true ∨ selector.selectsDeclared path = true) :
    (∀ exclusion ∈ catalog.exclusions, ¬ Covers exclusion path.normalize) ∧
      ∃ entry ∈ catalog.entries, entry.origin ≠ .negated ∧ Covers entry path.normalize := by
  have included {origin : Origin} (other : origin ≠ .negated)
      (found : ∃ entry ∈ catalog.entriesOf origin, Covers entry path.normalize) :
      ∃ entry ∈ catalog.entries, entry.origin ≠ .negated ∧ Covers entry path.normalize := by
    obtain ⟨entry, member, covers⟩ := found
    obtain ⟨isEntry, same⟩ := mem_entriesOf.1 member
    exact ⟨entry, isEntry, same ▸ other, covers⟩
  rcases accepted with selected | selected
  · obtain ⟨kept, ⟨declared, -⟩ | ⟨-, default, -⟩⟩ := (selects_iff_normalize compiles).1 selected
    · exact ⟨kept, included (by decide) declared⟩
    · exact ⟨kept, included (by decide) default⟩
  · obtain ⟨kept, declared, -⟩ := (selectsDeclared_iff_normalize compiles).1 selected
    exact ⟨kept, included (by decide) declared⟩

theorem exists_source_of_selects (compiles : Compiles tree catalog selector)
    (accepted : selector.selects path = true ∨ selector.selectsDeclared path = true) :
    ∃ source ∈ catalog.sources, path.normalize.startsWith (fixedStart source.glob) = true := by
  obtain ⟨kept, entry, isEntry, origin, covers⟩ := exists_covers_of_selects compiles accepted
  obtain ⟨source, isSource, same⟩ := exists_source_of_covers isEntry origin covers kept
  exact ⟨source, isSource, startsWith_of_covers ((covers_congr same).2 covers)⟩

/-- No root of a compiled catalog lies at or below another one. Every source starts at or below a
root, and every accepted path lies at or below a root and at or below the root of a walk. -/
theorem roots_enclose (compiled : ofCatalog tree catalog = .ok selector) :
    selector.roots = catalog.roots ∧
    (catalog.roots.Pairwise fun root other =>
      ¬ root.startsWith other = true ∧ ¬ other.startsWith root = true) ∧
    (∀ root ∈ catalog.roots, ∃ entry ∈ catalog.sources, fixedStart entry.glob = root) ∧
    (∀ entry ∈ catalog.sources, ∃ root ∈ catalog.roots,
      (fixedStart entry.glob).startsWith root = true) ∧
    ∀ path, selector.selects path = true ∨ selector.selectsDeclared path = true →
      (∃ root ∈ catalog.roots, path.normalize.startsWith root = true) ∧
      ∃ walk ∈ selector.walks, path.normalize.startsWith walk.root = true := by
  have compiles := compiles_of_ofCatalog compiled
  obtain ⟨apart, chosen, covers⟩ := catalog.encloses_roots
  have enclosed : ∀ entry ∈ catalog.sources, ∃ root ∈ catalog.roots,
      (fixedStart entry.glob).startsWith root = true :=
    fun entry isSource => covers _ (List.mem_map_of_mem isSource)
  refine ⟨(ofCatalog_eq_ok.1 compiled).2.2.2.2.2, apart,
    fun root member => List.mem_map.1 (chosen root member), enclosed, fun path accepted => ?_⟩
  obtain ⟨source, isSource, below⟩ := exists_source_of_selects compiles accepted
  constructor
  · obtain ⟨root, isRoot, above⟩ := enclosed source isSource
    exact ⟨root, isRoot, startsWith_trans below above⟩
  · obtain ⟨walk, isWalk, same⟩ := exists_walk isSource
    rw [SourceWalk.same, Bool.and_eq_true, walkFor_root, Path.same, decide_eq_true_eq] at same
    rw [compiles.walks]
    refine ⟨walk, isWalk, ?_⟩
    rwa [startsWith_iff, ← same.1, ← startsWith_iff]

-- A declared source inside of the project, one beside it and an excluded one.
private def market : SourceCatalog :=
  ((((SourceCatalog.empty.declare "stalls/*.html" ⟨"/m"⟩).insert ⟨"**/*", ⟨"/m"⟩, .default⟩).declare
    "../lib/**/*.rs" ⟨"/m"⟩).declare "./old" ⟨"/m"⟩).exclude "old" ⟨"/m"⟩

theorem market_roots_enclose : ∃ selector, ofCatalog ⟨[], []⟩ market = .ok selector ∧
    selector.roots = [⟨"/m"⟩, ⟨"/lib"⟩] ∧ selector.selects ⟨"/m/stalls/../a.html"⟩ = true ∧
    ((∃ root ∈ market.roots, (Path.mk "/m/stalls/../a.html").normalize.startsWith root = true) ∧
      ∃ walk ∈ selector.walks,
        (Path.mk "/m/stalls/../a.html").normalize.startsWith walk.root = true) := by
  have selected : (ofCatalog ⟨[], []⟩ market).toOption.map
      (·.selects ⟨"/m/stalls/../a.html"⟩) = some true := by decide +kernel
  have roots : market.roots = [⟨"/m"⟩, ⟨"/lib"⟩] := by decide +kernel
  cases compiled : ofCatalog ⟨[], []⟩ market with
  | error error => simp [compiled, Except.toOption] at selected
  | ok selector =>
    rw [compiled] at selected
    have accepted := Option.some.inj selected
    obtain ⟨same, -, -, -, law⟩ := roots_enclose compiled
    exact ⟨selector, rfl, same.trans roots, accepted, law _ (.inl accepted)⟩

end SourceSelector

end UtilityCss
