import Mathlib.Data.List.Sort
import UtilityCss.Proofs.Path.Order
import UtilityCss.Proofs.Source.SpelledRoot

set_option autoImplicit false

namespace UtilityCss

open Source SourceSelector UtilityCss.Path FileTree Ignore

def Path.Skipped (p : Path) : Prop :=
  p.normalize.components.any (fun component => component.text ∈ skippedDirectories) = true

instance (p : Path) : Decidable p.Skipped := inferInstanceAs (Decidable (_ = _))

/-- The path is written as its normal form, perhaps with a dot in front of it or a slash behind it,
and leaves room for the name of the ignore file. -/
structure Path.IsTidy (p : Path) : Prop where
  short : (p.child ".gitignore").spelling.utf8ByteSize ≤ longestPath
  fits : Fits p.normalize (RuleSet.dropDot p.spelling.toList)

/-- The ignore file of the directory, read with the path as it is written, refuses and excludes
nothing that a walk from there shows. -/
def AddsNothing (tree : FileTree) (p : Path) : Prop :=
  ∀ own ∈ ignoreFile? tree p, ∀ path ∈ walk tree true p.normalize, path.startsWith own.1 = true →
    ∃ verdict, own.2.verdictAbove? path.spelling = some verdict ∧ verdict ≠ .ignored

variable {tree : FileTree} {p q path : Path} {names dir : List String}
  {entries : List (String × Node)} {selector : SourceSelector}

namespace Path

def NamesBefore (names others : List String) : Prop :=
  componentsLt (names.map stepComponent) (others.map stepComponent) = true

instance : Std.Irrefl NamesBefore := ⟨fun names => by simp [NamesBefore, componentsLt_irrefl]⟩

instance : Std.Antisymm NamesBefore :=
  ⟨fun _ _ first second => absurd (componentsLt_trans first second) (by simp [componentsLt_irrefl])⟩

end Path

namespace Source

theorem isLeftOut_foldl_child_congr (skipped : p.Skipped ↔ q.Skipped)
    (steps : ∀ name ∈ names, IsStep name) (nonempty : names ≠ []) :
    isLeftOut (names.foldl child p.normalize) = isLeftOut (names.foldl child q.normalize) := by
  have last : names.map stepComponent ≠ [] := by simpa using nonempty
  have name : (names.foldl child p.normalize).fileName? =
      (names.foldl child q.normalize).fileName? := by
    rw [fileName?, fileName?, components_foldl_child _ steps, components_foldl_child _ steps,
      List.getLast?_append_of_ne_nil _ last, List.getLast?_append_of_ne_nil _ last]
  have above : p.normalize.components.any (fun component => component.text ∈ skippedDirectories) =
      q.normalize.components.any fun component => component.text ∈ skippedDirectories :=
    Bool.eq_iff_iff.2 skipped
  simp only [isLeftOut, hasExtension, extension?, name, components_foldl_child _ steps,
    List.any_append, above]

end Source

namespace Ignore

theorem RuleSet.verdictBelow_congr {set other : RuleSet} (same : set.rules = other.rules)
    (names : List String) : set.verdictBelow names = other.verdictBelow names := by
  simp only [verdictBelow, decide_congr same]

end Ignore

namespace SourceSelector

def ownExcludes (tree : FileTree) (dir names : List String) : Bool :=
  (tree.contentAt? (dir ++ [".gitignore"])).any fun content =>
    (RuleSet.ofFile (pathOf dir) content).verdictBelow names = .ignored

theorem ignoreFile?_of_isTidy (proper : tree.Proper) (located : tree.locate p = .ok dir)
    (tidy : p.IsTidy) : ignoreFile? tree p = (tree.contentAt? (dir ++ [".gitignore"])).map
      fun content => (⟨(RuleSet.ofFile p content).directory⟩, RuleSet.ofFile p content) := by
  have isName : IsName ".gitignore" := by decide
  have reads (content : ByteArray) : tree.readBytes (p.child ".gitignore") = .ok content ↔
      tree.contentAt? (dir ++ [".gitignore"]) = some content :=
    readBytes_child_iff proper located isName tidy.short
  rw [ignoreFile?]
  cases file : tree.contentAt? (dir ++ [".gitignore"]) with
  | some content => rw [(reads content).2 file]; rfl
  | none =>
    cases read : tree.readBytes (p.child ".gitignore") with
    | error fault => rfl
    | ok content => simp [(reads content).1 read] at file

theorem startsWith_of_fits {directory : String} (fits : Fits p directory.toList)
    (nonempty : p.spelling ≠ "") (steps : ∀ name ∈ names, IsStep name) :
    (names.foldl child p).startsWith ⟨directory⟩ = true := by
  have same : (Path.mk directory).components = p.components := by
    rcases fits with equal | ⟨-, slash⟩
    · rw [String.toList_inj.1 equal]
    · have whole : directory = p.spelling ++ "/" := by
        rw [← String.toList_inj, slash, String.toList_append]
        rfl
      rw [whole, components_slash nonempty]
  rw [startsWith_iff, same, components_foldl_child p steps]
  exact List.prefix_append _ _

theorem isIgnored_of_isTidy (proper : tree.Proper) (addresses : p.Addresses tree dir)
    (tidy : p.IsTidy) (searches : selector.Searches tree p)
    (steps : ∀ name ∈ names, IsStep name) (nonempty : names ≠ []) :
    selector.isIgnored? (names.foldl child p.normalize) = some (ownExcludes tree dir names) := by
  have fits (content : ByteArray) : Fits p.normalize (RuleSet.ofFile p content).directory.toList := by
    rw [RuleSet.ofFile, String.toList_ofList]
    exact tidy.fits
  rw [isIgnored?, searches.ignoreFiles, ignoreFile?_of_isTidy proper addresses.located tidy,
    ownExcludes]
  cases tree.contentAt? (dir ++ [".gitignore"]) with
  | none => rfl
  | some content =>
    have below := startsWith_of_fits (fits content) addresses.spoken steps
    have verdict := RuleSet.verdictAbove?_of_relative
      (relative_foldl_child addresses.isSpelled (fits content) steps nonempty) steps
    have equal : (RuleSet.ofFile p content).verdictBelow names =
        (RuleSet.ofFile (pathOf dir) content).verdictBelow names :=
      RuleSet.verdictBelow_congr rfl names
    rw [equal] at verdict
    rw [Option.map_some, Option.toList_some, ignoredBy?, if_pos below, verdict, Option.any_some]
    cases (RuleSet.ofFile (pathOf dir) content).verdictBelow names <;> rfl

theorem isIgnored_of_addsNothing (adds : AddsNothing tree p)
    (searches : selector.Searches tree p)
    (shown : path ∈ walk tree true p.normalize) : selector.isIgnored? path = some false := by
  rw [isIgnored?, searches.ignoreFiles, ignoredBy?_eq_false_iff]
  exact fun file member below => adds file (Option.mem_toList.1 member) path shown below

variable (proper : tree.Proper) (isDirectory : tree.nodeAt? dir = some (.directory entries))

section Found

variable (addresses : p.Addresses tree dir)

include proper isDirectory addresses

theorem exists_names_of_mem_walk (shown : path ∈ walk tree true p.normalize) :
    ∃ names, names ≠ [] ∧ (tree.contentAt? (dir ++ names)).isSome ∧
      path = names.foldl child p.normalize ∧
        hides (startRules tree true dir) p.normalize "" names (.directory entries) = false := by
  obtain ⟨place, names, node, led, isNode, file, same, free⟩ := (mem_walk proper true).1 shown
  obtain rfl : dir = place := Except.ok.inj ((addresses.locate_normalize proper).symm.trans led)
  obtain rfl : Node.directory entries = node := Option.some.inj (isDirectory.symm.trans isNode)
  refine ⟨names, ?_, file, same, free⟩
  rintro rfl
  simp [contentAt?, isDirectory] at file

theorem mem_walk_foldl_child_iff (steps : ∀ name ∈ names, IsStep name) :
    names.foldl child p.normalize ∈ walk tree true p.normalize ↔
      (tree.contentAt? (dir ++ names)).isSome ∧
        hides (startRules tree true dir) p.normalize "" names (.directory entries) = false := by
  constructor
  · intro shown
    obtain ⟨others, -, file, same, free⟩ :=
      exists_names_of_mem_walk proper isDirectory addresses shown
    have further := (List.forall_mem_append.1 (proper.isStep_of_file file)).2
    obtain rfl := same_foldl_child steps further (same_iff.2 (congrArg components same))
    exact ⟨file, free⟩
  · rintro ⟨file, free⟩
    have located := addresses.locate_normalize proper
    exact (mem_walk proper true).2 ⟨dir, names, _, located, isDirectory, file, rfl, free⟩

variable (searches : selector.Searches tree p)

include searches

theorem exists_names_of_mem_files (member : path ∈ selector.files tree) :
    ∃ names, names ≠ [] ∧ (tree.contentAt? (dir ++ names)).isSome ∧
      path = names.foldl child p.normalize := by
  obtain ⟨-, way, isWay, inside⟩ := mem_of_mem_collect member
  obtain rfl : way = ⟨p.normalize, true⟩ := by simpa [searches.walks] using isWay
  obtain ⟨names, nonempty, file, same, -⟩ :=
    exists_names_of_mem_walk proper isDirectory addresses inside
  exact ⟨names, nonempty, file, same⟩

theorem mem_files_foldl_child_iff (nonempty : names ≠ []) (areNames : ∀ name ∈ names, IsName name) :
    names.foldl child p.normalize ∈ selector.files tree ↔
      names.foldl child p.normalize ∈ walk tree true p.normalize ∧
        isLeftOut (names.foldl child p.normalize) = false ∧
          selector.isIgnored? (names.foldl child p.normalize) = some false := by
  constructor
  · intro member
    obtain ⟨accepted, way, isWay, inside⟩ := mem_of_mem_collect member
    obtain rfl : way = ⟨p.normalize, true⟩ := by simpa [searches.walks] using isWay
    exact ⟨inside, (searches.selects_iff nonempty areNames).1 accepted⟩
  · rintro ⟨shown, kept⟩
    have accepted := (searches.selects_iff nonempty areNames).2 kept
    have isWalk : SourceWalk.mk p.normalize true ∈ selector.walks := by simp [searches.walks]
    obtain ⟨found, isFound, same⟩ := exists_mem_collect accepted isWalk shown
    -- What was collected under another spelling is spelled in the same way.
    obtain ⟨others, -, file, rfl⟩ :=
      exists_names_of_mem_files proper isDirectory addresses searches isFound
    have further := (List.forall_mem_append.1 (proper.isStep_of_file file)).2
    rwa [same_foldl_child (steps_of_names areNames) further same]

theorem files?_eq_none_iff_of_searches : selector.files? tree = none ↔
    ∃ path ∈ walk tree true p.normalize, isLeftOut path = false ∧
      ∃ own ∈ ignoreFile? tree p, path.startsWith own.1 = true ∧
        own.2.verdictAbove? path.spelling = none := by
  have walks : walked tree selector.walks = walk tree true p.normalize := by
    simp [walked, searches.walks]
  rw [files?_eq_none_iff, walks]
  refine exists_congr fun path => and_congr_right fun shown => ?_
  obtain ⟨names, nonempty, file, rfl, -⟩ :=
    exists_names_of_mem_walk proper isDirectory addresses shown
  have areNames := (List.forall_mem_append.1 (proper.isName_of_file file)).2
  rw [searches.selects?_eq nonempty areNames, isIgnored?, searches.ignoreFiles]
  cases isLeftOut (names.foldl child p.normalize) with
  | true => simp
  | false =>
    rw [if_neg Bool.false_ne_true, Option.map_eq_none_iff, and_iff_right rfl]
    cases ignoreFile? tree p with
    | none => simp [ignoredBy?]
    | some own => simp [ignoredBy?_singleton_eq_none_iff]

theorem files?_eq_some_of_rules (rules : p.IsTidy ∨ AddsNothing tree p) :
    selector.files? tree = some (selector.files tree) := by
  refine files?_eq_some_iff.2 ⟨fun path member refused => ?_, rfl⟩
  have shown : path ∈ walk tree true p.normalize := by simpa [walked, searches.walks] using member
  obtain ⟨names, nonempty, file, rfl, -⟩ :=
    exists_names_of_mem_walk proper isDirectory addresses shown
  have areNames := (List.forall_mem_append.1 (proper.isName_of_file file)).2
  have answered : selector.isIgnored? (names.foldl child p.normalize) ≠ none := by
    rcases rules with tidy | adds
    · simp [isIgnored_of_isTidy proper addresses tidy searches (steps_of_names areNames) nonempty]
    · simp [isIgnored_of_addsNothing adds searches shown]
  rw [searches.selects?_eq nonempty areNames] at refused
  split_ifs at refused
  exact answered (Option.map_eq_none_iff.1 refused)

theorem mem_places_iff {place : List String} :
    place ∈ (selector.files tree).map tree.meantPlace ↔
      ∃ names, names ≠ [] ∧ (∀ name ∈ names, IsName name) ∧ place = dir ++ names ∧
        names.foldl child p.normalize ∈ selector.files tree := by
  have located := addresses.locate_normalize proper
  rw [List.mem_map]
  constructor
  · rintro ⟨path, member, rfl⟩
    obtain ⟨names, nonempty, file, rfl⟩ :=
      exists_names_of_mem_files proper isDirectory addresses searches member
    have areNames := fun name inside =>
      proper.isName_of_file file name (List.mem_append_right dir inside)
    exact ⟨names, nonempty, areNames, meantPlace_foldl_child proper located areNames, member⟩
  · rintro ⟨names, -, areNames, rfl, member⟩
    exact ⟨_, member, meantPlace_foldl_child proper located areNames⟩

theorem pairwise_places :
    ((selector.files tree).map tree.meantPlace).Pairwise NamesBefore := by
  have located := addresses.locate_normalize proper
  have increasing : Increasing (selector.files tree) := increasing_collect _ _ _
  rw [List.pairwise_map]
  refine increasing.imp_of_mem fun {path other} first second less => ?_
  obtain ⟨names, -, file, rfl⟩ :=
    exists_names_of_mem_files proper isDirectory addresses searches first
  obtain ⟨others, -, more, rfl⟩ :=
    exists_names_of_mem_files proper isDirectory addresses searches second
  have areNames := (List.forall_mem_append.1 (proper.isName_of_file file)).2
  have further := (List.forall_mem_append.1 (proper.isName_of_file more)).2
  rw [meantPlace_foldl_child proper located areNames, meantPlace_foldl_child proper located further]
  rw [Path.lt, components_foldl_child _ (steps_of_names areNames),
    components_foldl_child _ (steps_of_names further), componentsLt_append] at less
  rw [NamesBefore, List.map_append, List.map_append, componentsLt_append]
  exact less

theorem map_readBytes_files
    (short : ∀ path ∈ selector.files tree, path.spelling.utf8ByteSize ≤ longestPath) :
    (selector.files tree).map tree.readBytes =
      ((selector.files tree).map tree.meantPlace).map fun place =>
        (tree.contentAt? place).elim (.error .notFound) .ok := by
  have located := addresses.locate_normalize proper
  rw [List.map_map]
  refine List.map_congr_left fun path member => ?_
  obtain ⟨names, -, file, rfl⟩ :=
    exists_names_of_mem_files proper isDirectory addresses searches member
  have areNames := (List.forall_mem_append.1 (proper.isName_of_file file)).2
  obtain ⟨content, isContent⟩ := Option.isSome_iff_exists.1 file
  rw [Function.comp_apply, meantPlace_foldl_child proper located areNames, isContent]
  exact readBytes_foldl_child proper located isContent (short _ member)

end Found

section Both

variable {other : SourceSelector} (first : p.Addresses tree dir) (second : q.Addresses tree dir)
  (searches : selector.Searches tree p) (again : other.Searches tree q)
  (skipped : p.Skipped ↔ q.Skipped)
  (rules : p.IsTidy ∧ q.IsTidy ∨ AddsNothing tree p ∧ AddsNothing tree q)

include proper isDirectory first second searches again skipped rules

theorem mem_files_of_mem_files (nonempty : names ≠ []) (areNames : ∀ name ∈ names, IsName name)
    (member : names.foldl child p.normalize ∈ selector.files tree) :
    names.foldl child q.normalize ∈ other.files tree := by
  have steps := steps_of_names areNames
  obtain ⟨shown, kept, free⟩ :=
    (mem_files_foldl_child_iff proper isDirectory first searches nonempty areNames).1 member
  have visible : names.foldl child q.normalize ∈ walk tree true q.normalize := by
    rw [mem_walk_foldl_child_iff proper isDirectory second steps,
      ← hides_congr first.isSpelled second.isSpelled steps]
    exact (mem_walk_foldl_child_iff proper isDirectory first steps).1 shown
  refine (mem_files_foldl_child_iff proper isDirectory second again nonempty areNames).2
    ⟨visible, (isLeftOut_foldl_child_congr skipped steps nonempty).symm.trans kept, ?_⟩
  rcases rules with ⟨tidy, others⟩ | ⟨-, adds⟩
  · rw [isIgnored_of_isTidy proper first tidy searches steps nonempty] at free
    rwa [isIgnored_of_isTidy proper second others again steps nonempty]
  · exact isIgnored_of_addsNothing adds again visible

theorem places_eq :
    (selector.files tree).map tree.meantPlace = (other.files tree).map tree.meantPlace := by
  have turned : q.IsTidy ∧ p.IsTidy ∨ AddsNothing tree q ∧ AddsNothing tree p :=
    rules.imp And.symm And.symm
  refine (pairwise_places proper isDirectory first searches).eq_of_mem_iff
    (pairwise_places proper isDirectory second again) fun place => ?_
  rw [mem_places_iff proper isDirectory first searches,
    mem_places_iff proper isDirectory second again]
  refine exists_congr fun names => and_congr_right fun nonempty =>
    and_congr_right fun areNames => and_congr_right fun _ => ⟨?_, ?_⟩
  · exact mem_files_of_mem_files proper isDirectory first second searches again skipped rules
      nonempty areNames
  · exact mem_files_of_mem_files proper isDirectory second first again searches skipped.symm turned
      nonempty areNames

end Both

end SourceSelector

end UtilityCss
