import UtilityCss.Proofs.Source.Agreement
import UtilityCss.Proofs.Source.Stability

set_option autoImplicit false

namespace UtilityCss

open Source UtilityCss.Path

section KeepFirst

variable {α : Type} {same : α → α → Bool} {keep : α → Bool}

theorem filter_keepFirst (respects : ∀ item other, same item other = true → keep item = keep other)
    (items : List α) : (keepFirst same items).filter keep = keepFirst same (items.filter keep) := by
  induction items using List.reverseRecOn with
  | nil => rfl
  | append_singleton items last ih =>
    rw [keepFirst_concat, List.filter_append]
    by_cases kept : keep last = true
    · have seen : (keepFirst same (items.filter keep)).any (same last) =
          (keepFirst same items).any (same last) := by
        rw [← ih, List.any_filter, Bool.eq_iff_iff, List.any_eq_true, List.any_eq_true]
        refine exists_congr fun other => and_congr_right fun _ => ?_
        rw [Bool.and_eq_true, and_iff_right_iff_imp]
        exact fun equal => (respects last other equal).symm.trans kept
      rw [List.filter_cons_of_pos kept, List.filter_nil, keepFirst_concat, seen, ← ih]
      split_ifs
      · rfl
      · rw [List.filter_append, List.filter_cons_of_pos kept, List.filter_nil]
    · rw [List.filter_cons_of_neg kept, List.filter_nil, List.append_nil, ← ih]
      split_ifs
      · rfl
      · rw [List.filter_append, List.filter_cons_of_neg kept, List.filter_nil, List.append_nil]

end KeepFirst

theorem Source.Entry.same_refl (entry : Entry) : entry.same entry = true := by
  simp [Entry.same, Path.same_refl]

theorem Source.Entry.origin_of_same {entry other : Entry} (same : entry.same other = true) :
    entry.origin = other.origin :=
  congrArg Prod.snd (Entry.outline_of_same same)

theorem Source.Entry.glob_of_same {entry other : Entry} (same : entry.same other = true) :
    entry.glob = other.glob :=
  congrArg Prod.fst (Entry.outline_of_same same)

theorem Source.Entry.normalize_base_of_same {entry other : Entry} (same : entry.same other = true) :
    entry.base.normalize = other.base.normalize := by
  rw [Entry.same, Bool.and_eq_true, Bool.and_eq_true] at same
  rw [Path.normalize, Path.normalize, same_iff.1 same.1.2]

inductive Registration where
  | project (root : Path)
  | declare (pattern : String) (base : Path)
  | exclude (pattern : String) (base : Path)
  deriving DecidableEq, Repr

def Registration.entry : Registration → Entry
  | .project root => ⟨"**/*", root, .default⟩
  | .declare pattern base => ⟨pattern, base, .declared⟩
  | .exclude pattern base => ⟨pattern, base, .negated⟩

namespace SourceCatalog

def register (catalog : SourceCatalog) : Registration → SourceCatalog
  | .project root => catalog.insert ⟨"**/*", root, .default⟩
  | .declare pattern base => catalog.declare pattern base
  | .exclude pattern base => catalog.exclude pattern base

def ofRegistrations (registrations : List Registration) : SourceCatalog :=
  registrations.foldl register empty

theorem register_eq (catalog : SourceCatalog) (registration : Registration) :
    catalog.register registration = catalog.insert registration.entry := by
  cases registration <;> rfl

theorem entries_ofRegistrations (registrations : List Registration) :
    (ofRegistrations registrations).entries =
      keepFirst Entry.same (registrations.map Registration.entry) := by
  induction registrations using List.reverseRecOn with
  | nil => rfl
  | append_singleton registrations last ih =>
    rw [ofRegistrations, List.foldl_append, List.foldl_cons, List.foldl_nil, ← ofRegistrations,
      register_eq, insert, List.map_append, List.map_singleton, keepFirst_concat, ← ih]
    split_ifs <;> rfl

theorem entriesOf_ofRegistrations (registrations : List Registration) (origin : Origin) :
    (ofRegistrations registrations).entriesOf origin = keepFirst Entry.same
      ((registrations.map Registration.entry).filter fun entry => entry.origin = origin) := by
  rw [entriesOf, entries_ofRegistrations, filter_keepFirst]
  intro entry other same
  rw [Entry.origin_of_same same]

/-- Every entry is among some others, up to the spelling of its directory. -/
def Represented (entries others : List Entry) : Prop :=
  ∀ entry ∈ entries, ∃ other ∈ others, entry.same other = true

instance (entries others : List Entry) : Decidable (Represented entries others) :=
  inferInstanceAs (Decidable (∀ entry ∈ entries, ∃ other ∈ others, entry.same other = true))

theorem represented_of_subset {entries others : List Entry} (subset : entries ⊆ others) :
    Represented (keepFirst Entry.same entries) (keepFirst Entry.same others) :=
  fun _ member => exists_keepFirst Entry.same_refl (subset (mem_of_mem_keepFirst member))

structure Widens (tree : FileTree) (catalog wider : SourceCatalog) : Prop where
  exclusions : Represented wider.exclusions catalog.exclusions
  declared : Represented (catalog.entriesOf .declared) (wider.entriesOf .declared)
  defaults : Represented (catalog.entriesOf .default) (wider.entriesOf .default)
  ignoreFiles : wider.ignoreFiles tree ⊆ catalog.ignoreFiles tree

section Comparisons

variable {tree : FileTree} {catalog other : SourceCatalog} {registrations : List Registration}

theorem represented_entriesOf (represented : Represented catalog.entries other.entries)
    (origin : Origin) : Represented (catalog.entriesOf origin) (other.entriesOf origin) := by
  intro entry member
  obtain ⟨isEntry, isOrigin⟩ := SourceSelector.mem_entriesOf.1 member
  obtain ⟨twin, isTwin, same⟩ := represented entry isEntry
  exact ⟨twin, SourceSelector.mem_entriesOf.2 ⟨isTwin, Entry.origin_of_same same ▸ isOrigin⟩, same⟩

-- Equal paths in normal form are spelled alike, so the same ignore files are read.
theorem ignoreFiles_subset_of_normal (represented : Represented catalog.entries other.entries)
    (own : ∀ entry ∈ catalog.entriesOf .default, entry.base.normalize = entry.base)
    (twins : ∀ entry ∈ other.entriesOf .default, entry.base.normalize = entry.base) :
    catalog.ignoreFiles tree ⊆ other.ignoreFiles tree := by
  intro file member
  obtain ⟨entry, isEntry, read⟩ := List.mem_filterMap.1 member
  obtain ⟨twin, isTwin, same⟩ := represented_entriesOf represented .default entry isEntry
  have base : entry.base = twin.base := by
    rw [← own entry isEntry, ← twins twin isTwin, Entry.normalize_base_of_same same]
  exact List.mem_filterMap.2 ⟨twin, isTwin, base ▸ read⟩

theorem widens_of_represented (first : Represented catalog.entries other.entries)
    (second : Represented other.entries catalog.entries)
    (files : other.ignoreFiles tree ⊆ catalog.ignoreFiles tree) : Widens tree catalog other :=
  ⟨represented_entriesOf second .negated, represented_entriesOf first .declared,
    represented_entriesOf first .default, files⟩

variable {before after : List Registration} {pattern : String} {base : Path} {origin : Origin}

theorem entriesOf_insert {registration : Registration} (apart : registration.entry.origin ≠ origin) :
    (ofRegistrations (before ++ registration :: after)).entriesOf origin =
      (ofRegistrations (before ++ after)).entriesOf origin := by
  simp [entriesOf_ofRegistrations, apart]

theorem represented_entriesOf_insert (registration : Registration) (origin : Origin) :
    Represented ((ofRegistrations (before ++ after)).entriesOf origin)
      ((ofRegistrations (before ++ registration :: after)).entriesOf origin) := by
  rw [entriesOf_ofRegistrations, entriesOf_ofRegistrations]
  apply represented_of_subset
  refine List.filter_subset _ (List.map_subset _ ?_)
  exact List.append_subset.2 ⟨List.subset_append_left _ _,
    List.Subset.trans (List.subset_cons_self _ _) (List.subset_append_right _ _)⟩

theorem represented_refl (entries : List Entry) : Represented entries entries :=
  fun entry member => ⟨entry, member, Entry.same_refl entry⟩

theorem widens_declare : Widens tree (ofRegistrations (before ++ after))
    (ofRegistrations (before ++ .declare pattern base :: after)) where
  exclusions := by
    rw [exclusions, exclusions, entriesOf_insert (by simp [Registration.entry])]
    exact represented_refl _
  declared := represented_entriesOf_insert _ _
  defaults := represented_entriesOf_insert _ _
  ignoreFiles := by
    rw [ignoreFiles, ignoreFiles, entriesOf_insert (by simp [Registration.entry])]
    exact List.Subset.refl _

theorem widens_of_exclude : Widens tree (ofRegistrations (before ++ .exclude pattern base :: after))
    (ofRegistrations (before ++ after)) where
  exclusions := represented_entriesOf_insert _ _
  declared := by
    rw [entriesOf_insert (by simp [Registration.entry])]
    exact represented_refl _
  defaults := by
    rw [entriesOf_insert (by simp [Registration.entry])]
    exact represented_refl _
  ignoreFiles := by
    rw [ignoreFiles, ignoreFiles, entriesOf_insert (by simp [Registration.entry])]
    exact List.Subset.refl _

theorem exists_exclusion (before after : List Registration) (pattern : String) (base : Path) :
    ∃ entry ∈ (ofRegistrations (before ++ .exclude pattern base :: after)).exclusions,
      entry.glob = globBelow base pattern := by
  have member : Entry.mk pattern base .negated ∈
      ((before ++ .exclude pattern base :: after).map Registration.entry).filter
        fun entry => entry.origin = .negated := by
    simp [Registration.entry]
  obtain ⟨entry, isEntry, same⟩ := exists_keepFirst Entry.same_refl member
  refine ⟨entry, ?_, (Entry.glob_of_same same).symm⟩
  rwa [exclusions, entriesOf_ofRegistrations]

end Comparisons

end SourceCatalog

namespace SourceSelector

open SourceCatalog

variable {tree : FileTree} {catalog other : SourceCatalog} {selector later : SourceSelector}
  {path : Path} {entries others : List Entry}

theorem exists_covers_of_represented (represented : Represented entries others)
    (covered : ∃ entry ∈ entries, Covers entry path) : ∃ entry ∈ others, Covers entry path := by
  obtain ⟨entry, member, covers⟩ := covered
  obtain ⟨twin, isTwin, same⟩ := represented entry member
  exact ⟨twin, isTwin, (covers_congr (Entry.glob_of_same same)).1 covers⟩

theorem hasExtension_mono {extensions more : List String} (subset : extensions ⊆ more)
    (has : hasExtension extensions path = true) : hasExtension more path = true := by
  unfold hasExtension at has ⊢
  generalize path.extension? = found at has ⊢
  cases found with
  | none => exact has
  | some extension => exact decide_eq_true (subset (of_decide_eq_true has))

theorem isBinary_of_not_isLeftOut (kept : isLeftOut path = false) : isBinary path = false := by
  rw [isLeftOut, Bool.or_eq_false_iff] at kept
  by_contra binary
  rw [Bool.not_eq_false] at binary
  rw [hasExtension_mono (List.subset_append_right _ _) binary] at kept
  exact absurd kept.2 (by decide)

theorem not_excluded_of_widens (widens : Widens tree catalog other)
    (kept : ∀ entry ∈ catalog.exclusions, ¬ Covers entry path) :
    ∀ entry ∈ other.exclusions, ¬ Covers entry path := by
  intro entry member covers
  obtain ⟨twin, isTwin, excludes⟩ :=
    exists_covers_of_represented widens.exclusions ⟨entry, member, covers⟩
  exact kept twin isTwin excludes

section Widening

variable (compiles : Compiles tree catalog selector) (compilesLater : Compiles tree other later)
  (widens : Widens tree catalog other)

include compiles compilesLater widens

theorem isIgnored_of_widens (notIgnored : selector.isIgnored? path = some false) :
    later.isIgnored? path = some false := by
  rw [isIgnored?, ignoredBy?_eq_false_iff] at notIgnored ⊢
  intro file member
  rw [compilesLater.ignoreFiles] at member
  exact notIgnored file (compiles.ignoreFiles ▸ widens.ignoreFiles member)

theorem selectsDeclared_of_widens (accepted : selector.selectsDeclared path = true) :
    later.selectsDeclared path = true := by
  rw [selectsDeclared_iff_normalize compiles] at accepted
  rw [selectsDeclared_iff_normalize compilesLater]
  obtain ⟨kept, declared, isText⟩ := accepted
  exact ⟨not_excluded_of_widens widens kept,
    exists_covers_of_represented widens.declared declared, isText⟩

theorem selects_of_widens (accepted : selector.selects path = true) :
    later.selects path = true := by
  rw [selects_iff_normalize compiles] at accepted
  rw [selects_iff_normalize compilesLater]
  obtain ⟨kept, found⟩ := accepted
  refine ⟨not_excluded_of_widens widens kept, ?_⟩
  rcases found with ⟨declared, isText⟩ | ⟨-, default, notLeftOut, notIgnored⟩
  · exact .inl ⟨exists_covers_of_represented widens.declared declared, isText⟩
  · -- What a default entry alone covered may be declared now, which leaves out less.
    by_cases declared : ∃ entry ∈ other.entriesOf .declared, Covers entry path.normalize
    · exact .inl ⟨declared, isBinary_of_not_isLeftOut notLeftOut⟩
    · exact .inr ⟨declared, exists_covers_of_represented widens.defaults default, notLeftOut,
        isIgnored_of_widens compiles compilesLater widens notIgnored⟩

end Widening

section Same

variable (compiles : Compiles tree catalog selector) (compilesLater : Compiles tree other later)
  (first : Represented catalog.entries other.entries)
  (second : Represented other.entries catalog.entries)

include compiles compilesLater first second

theorem matchesAny_congr (path : Path) :
    matchesAny selector.excluded path = matchesAny later.excluded path ∧
      matchesAny selector.declared path = matchesAny later.declared path ∧
        matchesAny selector.defaults path = matchesAny later.defaults path := by
  have covered (origin : Origin) : (∃ entry ∈ catalog.entriesOf origin, Covers entry path) ↔
      ∃ entry ∈ other.entriesOf origin, Covers entry path :=
    ⟨exists_covers_of_represented (represented_entriesOf first origin),
      exists_covers_of_represented (represented_entriesOf second origin)⟩
  refine ⟨?_, ?_, ?_⟩
  · rw [Bool.eq_iff_iff, compiles.excluded, compilesLater.excluded]
    exact covered .negated
  · rw [Bool.eq_iff_iff, compiles.declared, compilesLater.declared]
    exact covered .declared
  · rw [Bool.eq_iff_iff, compiles.defaults, compilesLater.defaults]
    exact covered .default

theorem selectsDeclared_congr (path : Path) :
    selector.selectsDeclared path = later.selectsDeclared path := by
  obtain ⟨excluded, declared, -⟩ :=
    matchesAny_congr compiles compilesLater first second path.normalize
  rw [selectsDeclared, selectsDeclared, excluded, declared]

theorem selects?_congr
    (alike : selector.isIgnored? path.normalize = later.isIgnored? path.normalize) :
    selector.selects? path = later.selects? path := by
  obtain ⟨excluded, declared, defaults⟩ :=
    matchesAny_congr compiles compilesLater first second path.normalize
  rw [selects?, selects?, excluded, declared, defaults, alike]

-- The order of the ignore files decides which of them refuses a path, and not which paths are free.
theorem selects_congr_of_ignoreFiles (files : catalog.ignoreFiles tree ⊆ other.ignoreFiles tree)
    (others : other.ignoreFiles tree ⊆ catalog.ignoreFiles tree) (path : Path) :
    selector.selects path = later.selects path := by
  rw [Bool.eq_iff_iff]
  exact ⟨selects_of_widens compiles compilesLater (widens_of_represented first second others),
    selects_of_widens compilesLater compiles (widens_of_represented second first files)⟩

theorem selects?_congr_of_normal
    (own : ∀ entry ∈ catalog.entriesOf .default, entry.base.normalize = entry.base)
    (twins : ∀ entry ∈ other.entriesOf .default, entry.base.normalize = entry.base) (path : Path) :
    ∃ answer, selector.selects? path = some answer ∧ later.selects? path = some answer := by
  have alike := selects_congr_of_ignoreFiles compiles compilesLater first second
    (ignoreFiles_subset_of_normal first own twins) (ignoreFiles_subset_of_normal second twins own) path
  refine ⟨selector.selects path, ?_, alike ▸ ?_⟩
  · exact selects?_eq_selects (selects?_ne_none compiles (answersAll_ignoreFiles own) path)
  · exact selects?_eq_selects (selects?_ne_none compilesLater (answersAll_ignoreFiles twins) path)

end Same

theorem accepts_nothing_excluded (compiles : Compiles tree catalog selector)
    (excluded : ∃ entry ∈ catalog.exclusions, Covers entry path.normalize) :
    selector.selects path = false ∧ selector.selectsDeclared path = false := by
  obtain ⟨entry, member, covers⟩ := excluded
  constructor
  · rw [Bool.eq_false_iff, ne_eq, selects_iff_normalize compiles]
    exact fun accepted => accepted.1 entry member covers
  · rw [Bool.eq_false_iff, ne_eq, selectsDeclared_iff_normalize compiles]
    exact fun accepted => accepted.1 entry member covers

/-- Catalogs of equal entries tell declared sources alike, in any order of the registrations, and
differ in the others by what their ignore files say. A declared source takes no accepted path away,
and an exclusion adds none. -/
theorem selects_of_registrations (tree : FileTree) :
    (∀ (first second : List Registration) (selector later : SourceSelector),
      ofCatalog tree (ofRegistrations first) = .ok selector →
      ofCatalog tree (ofRegistrations second) = .ok later →
      Represented (ofRegistrations first).entries (ofRegistrations second).entries →
      Represented (ofRegistrations second).entries (ofRegistrations first).entries →
      (∀ path, selector.selectsDeclared path = later.selectsDeclared path) ∧
      (∀ path : Path, selector.isIgnored? path.normalize = later.isIgnored? path.normalize →
        selector.selects? path = later.selects? path) ∧
      ((ofRegistrations first).ignoreFiles tree ⊆ (ofRegistrations second).ignoreFiles tree →
        (ofRegistrations second).ignoreFiles tree ⊆ (ofRegistrations first).ignoreFiles tree →
          ∀ path, selector.selects path = later.selects path) ∧
      ((∀ entry ∈ (ofRegistrations first).entriesOf .default, entry.base.normalize = entry.base) →
        (∀ entry ∈ (ofRegistrations second).entriesOf .default, entry.base.normalize = entry.base) →
          ∀ path, ∃ answer, selector.selects? path = some answer ∧
            later.selects? path = some answer)) ∧
    (∀ (before after : List Registration) (pattern : String) (base : Path)
      (selector later : SourceSelector),
      ofCatalog tree (ofRegistrations (before ++ after)) = .ok selector →
      ofCatalog tree (ofRegistrations (before ++ .declare pattern base :: after)) = .ok later →
      ∀ path, (selector.selects path = true → later.selects path = true) ∧
        (selector.selectsDeclared path = true → later.selectsDeclared path = true)) ∧
    (∀ (before after : List Registration) (pattern : String) (base : Path)
      (selector later : SourceSelector),
      ofCatalog tree (ofRegistrations (before ++ after)) = .ok selector →
      ofCatalog tree (ofRegistrations (before ++ .exclude pattern base :: after)) = .ok later →
      ∀ path, (later.selects path = true → selector.selects path = true) ∧
        (later.selectsDeclared path = true → selector.selectsDeclared path = true)) ∧
    ∀ (before after : List Registration) (pattern : String) (base : Path)
      (selector : SourceSelector) (glob : Glob),
      ofCatalog tree (ofRegistrations (before ++ .exclude pattern base :: after)) = .ok selector →
      Glob.read false (globBelow base pattern) = .ok glob →
      ∀ path : Path, glob.isMatch path.normalize.spelling = true →
        selector.selects path = false ∧ selector.selectsDeclared path = false := by
  refine ⟨?order, ?declare, ?exclude, ?excluded⟩
  case order =>
    intro first second selector later compiled compiledLater within around
    have compiles := compiles_of_ofCatalog compiled
    have compilesLater := compiles_of_ofCatalog compiledLater
    exact ⟨selectsDeclared_congr compiles compilesLater within around,
      fun path => selects?_congr compiles compilesLater within around,
      selects_congr_of_ignoreFiles compiles compilesLater within around,
      selects?_congr_of_normal compiles compilesLater within around⟩
  case declare =>
    intro before after pattern base selector later compiled compiledLater path
    have compiles := compiles_of_ofCatalog compiled
    have compilesLater := compiles_of_ofCatalog compiledLater
    exact ⟨selects_of_widens compiles compilesLater widens_declare,
      selectsDeclared_of_widens compiles compilesLater widens_declare⟩
  case exclude =>
    intro before after pattern base selector later compiled compiledLater path
    have compiles := compiles_of_ofCatalog compiled
    have compilesLater := compiles_of_ofCatalog compiledLater
    exact ⟨selects_of_widens compilesLater compiles widens_of_exclude,
      selectsDeclared_of_widens compilesLater compiles widens_of_exclude⟩
  case excluded =>
    intro before after pattern base selector glob compiled read path isMatch
    obtain ⟨entry, isExclusion, same⟩ := exists_exclusion before after pattern base
    exact accepts_nothing_excluded (compiles_of_ofCatalog compiled)
      ⟨entry, isExclusion, glob, same ▸ read, isMatch⟩

-- A project with an ignore file, its logs declared all the same, and the old ones excluded.
private def office : FileTree :=
  { entries := [("o", .directory [(".gitignore", .file "/*.log\n".toUTF8)])], workingDirectory := [] }

private def officeRoot : Registration := .project ⟨"/o"⟩

private def officeLogs : Registration := .declare "logs/*.log" ⟨"/o"⟩

private def officeOld : Registration := .exclude "logs/old.*" ⟨"/o"⟩

theorem office_registrations : ∃ plain wide turned narrow : SourceSelector,
    ofCatalog office (ofRegistrations [officeRoot]) = .ok plain ∧
    ofCatalog office (ofRegistrations [officeRoot, officeLogs]) = .ok wide ∧
    ofCatalog office (ofRegistrations [officeLogs, officeRoot]) = .ok turned ∧
    ofCatalog office (ofRegistrations [officeOld, officeLogs, officeRoot]) = .ok narrow ∧
    (∀ path, ∃ answer, wide.selects? path = some answer ∧ turned.selects? path = some answer) ∧
    (∀ path, plain.selects path = true → wide.selects path = true) ∧
    (∀ path, narrow.selects path = true → turned.selects path = true) ∧
    narrow.selects ⟨"/o/logs/old.log"⟩ = false := by
  obtain ⟨order, declare, exclude, excluded⟩ := selects_of_registrations office
  have compiles (registrations : List Registration)
      (succeeds : (ofCatalog office (ofRegistrations registrations)).isOk) :
      ∃ selector, ofCatalog office (ofRegistrations registrations) = .ok selector :=
    exists_of_isOk succeeds
  obtain ⟨plain, isPlain⟩ := compiles [officeRoot] (by decide +kernel)
  obtain ⟨wide, isWide⟩ := compiles [officeRoot, officeLogs] (by decide +kernel)
  obtain ⟨turned, isTurned⟩ := compiles [officeLogs, officeRoot] (by decide +kernel)
  obtain ⟨narrow, isNarrow⟩ := compiles [officeOld, officeLogs, officeRoot] (by decide +kernel)
  have read : ∃ glob, Glob.read false (globBelow ⟨"/o"⟩ "logs/old.*") = .ok glob ∧
      glob.isMatch (Path.mk "/o/logs/old.log").normalize.spelling = true :=
    ⟨_, rfl, by decide +kernel⟩
  obtain ⟨glob, isGlob, isMatch⟩ := read
  refine ⟨plain, wide, turned, narrow, isPlain, isWide, isTurned, isNarrow, ?_, ?_, ?_, ?_⟩
  · obtain ⟨-, -, -, alike⟩ := order _ _ wide turned isWide isTurned (by decide +kernel)
      (by decide +kernel)
    exact alike (by decide +kernel) (by decide +kernel)
  · exact fun path => (declare [officeRoot] [] _ _ plain wide isPlain isWide path).1
  · exact fun path => (exclude [] [officeLogs, officeRoot] _ _ turned narrow isTurned isNarrow path).1
  · exact (excluded [] [officeLogs, officeRoot] _ _ narrow glob isNarrow isGlob _ isMatch).1

private def officeAnswer (registrations : List Registration) (path : Path) : Option (Option Bool) :=
  (ofCatalog office (ofRegistrations registrations)).toOption.map (·.selects? path)

-- Equal directories that are not spelled alike: the rules do not see what is below the second one from
-- there, and refuse it if it is absolute. Of two that are equal the first one is registered.
example : officeAnswer [.project ⟨"o"⟩] ⟨"o/a.log"⟩ = some (some false) ∧
    officeAnswer [.project ⟨"./o/."⟩] ⟨"o/a.log"⟩ = some (some true) ∧
    officeAnswer [.project ⟨"/o"⟩, .project ⟨"/./o"⟩] ⟨"/o/a.log"⟩ = some (some false) ∧
    officeAnswer [.project ⟨"/./o"⟩, .project ⟨"/o"⟩] ⟨"/o/a.log"⟩ = some none := by
  decide +kernel

end SourceSelector

end UtilityCss
