import UtilityCss.Proofs.Ignore.Walk

set_option autoImplicit false

namespace UtilityCss.Ignore

open UtilityCss.Path FileTree

variable {tree : FileTree} {node : Node} {place names before outer inner : List String}
  {name : String} {content : ByteArray} {set : RuleSet} {rules : Rules}

namespace RuleSet

def seen (names : List String) : String := "/".intercalate names

theorem toList_seen (names : List String) :
    (seen names).toList = ['/'].intercalate (names.map String.toList) := by
  simp [seen, String.toList_intercalate]

theorem seen_ne_empty (steps : ∀ name ∈ names, IsStep name) (nonempty : names ≠ []) :
    seen names ≠ "" := by
  obtain ⟨first, rest, rfl⟩ := List.exists_cons_of_ne_nil nonempty
  intro empty
  have text : (seen (first :: rest)).toList = [] := by rw [empty]; rfl
  rw [toList_seen] at text
  cases rest with
  | nil => exact (steps first List.mem_cons_self).toList_ne_nil (by simpa using text)
  | cons next more => simp [List.intercalate_cons_cons] at text

theorem toList_pathOf_append (nonempty : names ≠ []) (place : List String) :
    (pathOf (place ++ names)).spelling.toList =
      (if place = [] then [] else (pathOf place).spelling.toList) ++ '/' :: (seen names).toList := by
  rw [toList_pathOf, List.map_append, toList_seen]
  split_ifs with empty
  · simp [empty]
  · rw [toList_pathOf, Text.intercalate_append ['/'] (by simpa using empty)
      (by simpa using nonempty)]
    simp

theorem slash_free_seen (steps : ∀ name ∈ names, IsStep name) :
    ['/'].isPrefixOf? (seen names).toList = none := by
  cases names with
  | nil => rfl
  | cons first rest =>
    have step := steps first List.mem_cons_self
    obtain ⟨c, more, start⟩ := List.exists_cons_of_ne_nil step.toList_ne_nil
    have other : '/' ≠ c := fun same => step.free (by simp [start, ← same])
    have begins : ∃ behind, (seen (first :: rest)).toList = c :: behind := by
      rw [toList_seen]
      cases rest <;> simp [start, List.intercalate_cons_cons]
    obtain ⟨behind, text⟩ := begins
    simp [text, List.isPrefixOf?, other]

theorem dropDot_pathOf (place : List String) :
    dropDot (pathOf place).spelling.toList = (pathOf place).spelling.toList := by
  rw [toList_pathOf, dropDot]
  simp [List.isPrefixOf?]

theorem directory_ofFile (place : List String) (content : ByteArray) :
    (ofFile (pathOf place) content).directory = (pathOf place).spelling := by
  rw [ofFile, dropDot_pathOf, String.ofList_toList]

theorem relative_pathOf (directory : set.directory = (pathOf place).spelling)
    (steps : ∀ name ∈ names, IsStep name) (nonempty : names ≠ []) :
    set.relative (pathOf (place ++ names)).spelling = seen names := by
  have text := toList_pathOf_append nonempty place
  have absolute : set.directory ≠ "." := by
    rw [directory]
    intro here
    simpa [toList_pathOf] using congrArg String.toList here
  have slash : '/' ∈ (pathOf (place ++ names)).spelling.toList := by
    simp [text]
  rw [relative, dropDot_pathOf, if_neg (by simp [absolute, slash]), directory, text]
  split_ifs with root
  · -- Below the root no slash is left in front.
    have begins : (pathOf place).spelling.toList.isPrefixOf? ('/' :: (seen names).toList) =
        some (seen names).toList := by
      rw [root, List.isPrefixOf?_eq_some_iff_append_eq]
      rfl
    simp [begins, slash_free_seen steps]
  · have begins : (pathOf place).spelling.toList.isPrefixOf?
        ((pathOf place).spelling.toList ++ '/' :: (seen names).toList) =
          some ('/' :: (seen names).toList) := by
      rw [List.isPrefixOf?_eq_some_iff_append_eq]
    simp [begins, List.isPrefixOf?]

theorem above_append (pieces rest : List (List Char)) :
    above (pieces ++ rest) = (above rest).map (pieces ++ ·) ++ above pieces := by
  induction pieces with
  | nil => simp [above]
  | cons piece others ih => simp [above, ih, Function.comp_def]

theorem prefix_of_mem_above {start pieces : List (List Char)} (member : start ∈ above pieces) :
    start <+: pieces ∧ start.length < pieces.length := by
  induction pieces generalizing start with
  | nil => cases member
  | cons piece rest ih =>
    rw [above, List.mem_append, List.mem_map, List.mem_singleton] at member
    rcases member with ⟨inner, isInner, rfl⟩ | rfl
    · obtain ⟨before, shorter⟩ := ih isInner
      exact ⟨(List.prefix_cons_inj piece).2 before, Nat.succ_lt_succ shorter⟩
    · exact ⟨List.nil_prefix, Nat.succ_pos _⟩

theorem parents_seen (steps : ∀ name ∈ names, IsStep name) (nonempty : names ≠ []) :
    parents (seen names) = (above (names.map String.toList)).map fun pieces =>
      String.ofList (['/'].intercalate pieces) := by
  have free : ∀ piece ∈ names.map String.toList, '/' ∉ piece :=
    List.forall_mem_map.2 fun name member => (steps name member).free
  rw [parents, if_neg (seen_ne_empty steps nonempty), toList_seen,
    Text.split_intercalate (by simpa using nonempty) free]
  simp only [Text.join_eq_intercalate]

theorem foldl_orElse_undecided {α : Type} {verdict : α → Verdict} {items : List α}
    (undecided : ∀ item ∈ items, verdict item = .undecided) (start : Verdict) :
    items.foldl (fun known item => Verdict.orElse known (verdict item)) start = start := by
  induction items generalizing start with
  | nil => rfl
  | cons item rest ih =>
    obtain ⟨first, others⟩ := List.forall_mem_cons.1 undecided
    have here : start.orElse .undecided = start := by cases start <;> rfl
    rw [List.foldl_cons, first, here, ih others]

theorem foldl_orElse_of_decided {α : Type} (verdict : α → Verdict) (items : List α) :
    items.foldl (fun known item => Verdict.orElse known (verdict item)) .ignored = .ignored := by
  induction items with
  | nil => rfl
  | cons item rest ih => exact ih

theorem foldl_orElse_ignored {α : Type} {verdict : α → Verdict} {earlier later : List α} {item : α}
    {start : Verdict} (ignored : verdict item = .ignored) (first : start ≠ .included)
    (others : ∀ other ∈ earlier, verdict other ≠ .included) :
    (earlier ++ item :: later).foldl (fun known item => Verdict.orElse known (verdict item)) start =
      .ignored := by
  induction earlier generalizing start with
  | nil =>
    have here : start.orElse (verdict item) = .ignored := by
      cases start <;> simp_all [Verdict.orElse]
    rw [List.nil_append, List.foldl_cons, here, foldl_orElse_of_decided]
  | cons other rest ih =>
    obtain ⟨here, further⟩ := List.forall_mem_cons.1 others
    refine ih ?_ further
    cases start <;> simp_all [Verdict.orElse]

def verdictOn (set : RuleSet) (names outer : List String) : Verdict :=
  set.decide (seen outer) (outer ≠ names)

def IgnoresForGood (set : RuleSet) (names : List String) : Prop :=
  ∀ outer inner, outer ≠ [] → outer <+: inner → inner <+: names →
    set.verdictOn names outer = .ignored → set.verdictOn names inner ≠ .included

theorem ignoresForGood_of_not_negated (plain : ∀ rule ∈ set.rules, rule.negated = false)
    (names : List String) : set.IgnoresForGood names := by
  intro outer inner _ _ _ _ included
  rw [verdictOn, decide] at included
  split at included
  · next rule found =>
    have own := plain rule (List.mem_reverse.1 (List.mem_of_find?_eq_some found))
    simp [own] at included
  · cases included

theorem decide_of_no_rules (none : set.rules = []) (relative : String) (isDirectory : Bool) :
    set.decide relative isDirectory = .undecided := by
  rw [decide, none]
  rfl

def verdictBelow (set : RuleSet) (names : List String) : Verdict :=
  (parents (seen names)).foldl (fun verdict parent => verdict.orElse (set.decide parent true))
    (set.decide (seen names) false)

theorem not_isAbsolute_seen (steps : ∀ name ∈ names, IsStep name) :
    (Path.mk (seen names)).isAbsolute = false := by
  have free := slash_free_seen steps
  unfold Path.isAbsolute
  cases text : (seen names).toList with
  | nil => rfl
  | cons c rest =>
    rw [text] at free
    have other : '/' ≠ c := by simpa [List.isPrefixOf?] using free
    simp [Ne.symm other]

theorem verdictAbove?_of_relative {path : String} (relative : set.relative path = seen names)
    (steps : ∀ name ∈ names, IsStep name) :
    set.verdictAbove? path = some (set.verdictBelow names) := by
  rw [verdictAbove?, relative, not_isAbsolute_seen steps]
  by_cases empty : set.rules.isEmpty = true
  · have none := decide_of_no_rules (List.isEmpty_iff.1 empty)
    rw [if_pos empty, verdictBelow, foldl_orElse_undecided (fun parent _ => none parent true), none]
  · rw [if_neg empty, if_neg Bool.false_ne_true, verdictBelow]

theorem verdictBelow_of_ignored (steps : ∀ name ∈ names, IsStep name)
    (good : set.IgnoresForGood names) (isOuter : outer ≠ []) (above : outer <+: names)
    (ignored : set.verdictOn names outer = .ignored) : set.verdictBelow names = .ignored := by
  have nonempty : names ≠ [] := fun empty => isOuter (List.prefix_nil.1 (empty ▸ above))
  have later : ∀ inner, outer <+: inner → inner <+: names → set.verdictOn names inner ≠ .included :=
    fun inner below isInner => good outer inner isOuter below isInner ignored
  rw [verdictBelow, parents_seen steps nonempty, List.foldl_map]
  have own : set.decide (seen names) false = set.verdictOn names names := by simp [verdictOn]
  rw [own]
  obtain ⟨rest, rfl⟩ := above
  cases rest with
  | nil =>
    rw [List.append_nil] at ignored ⊢
    rw [ignored, foldl_orElse_of_decided]
  | cons next more =>
    have seenOuter (inner : List String) :
        String.ofList (['/'].intercalate (inner.map String.toList)) = seen inner := by
      rw [← toList_seen, String.ofList_toList]
    rw [List.map_append, above_append, List.map_cons, above, List.map_append, List.append_assoc,
      List.map_singleton, List.singleton_append, List.append_nil]
    apply foldl_orElse_ignored
    · rw [seenOuter]
      simpa [verdictOn] using ignored
    · exact later _ (List.prefix_append _ _) (List.prefix_refl _)
    · -- What is decided earlier lies between the directory and the file.
      intro pieces member
      simp only [List.map_map, List.mem_map, Function.comp_apply] at member
      obtain ⟨start, isStart, rfl⟩ := member
      obtain ⟨before, shorter⟩ := prefix_of_mem_above isStart
      obtain ⟨between, within, rfl⟩ := List.prefix_map_iff.1 before
      have inner := later (outer ++ next :: between) (List.prefix_append _ _)
        ((List.prefix_append_right_inj outer).2 ((List.prefix_cons_inj next).2 within))
      have proper : between ≠ more := by
        rintro rfl
        simp at shorter
      have text := seenOuter (outer ++ next :: between)
      rw [List.map_append, List.map_cons] at text
      rw [text]
      simpa [verdictOn, proper] using inner

end RuleSet

def IsIgnoreFile (names : List String) : Prop :=
  [".ignore"] <:+ names ∨ [".gitignore"] <:+ names ∨ [".git", "info", "exclude"] <:+ names

instance (names : List String) : Decidable (IsIgnoreFile names) :=
  inferInstanceAs (Decidable (_ ∨ _ ∨ _))

def SoleIgnoreFile (tree : FileTree) (place : List String) : Prop :=
  ∀ file ∈ tree.root.files, IsIgnoreFile file.1 → file.1 ≠ place ++ [".gitignore"] →
    (textLines file.2).filterMap rule? = []

theorem fileAt?_eq_some :
    DirectoryRules.fileAt? node names = some content ↔ node.at? names = some (.file content) := by
  unfold DirectoryRules.fileAt?
  rcases node.at? names with _ | ⟨found | entries⟩ <;> simp

theorem rules_of_fileAt? {directory : Path}
    (found : DirectoryRules.fileAt? node names = some content) :
    (DirectoryRules.ruleSet directory node names).rules = (textLines content).filterMap rule? := by
  rw [DirectoryRules.ruleSet, found]
  rfl

theorem rules_eq_nil {spot : List String} (sole : SoleIgnoreFile tree place)
    (isNode : tree.nodeAt? spot = some node) (isIgnoreFile : IsIgnoreFile (spot ++ names))
    (other : spot ++ names ≠ place ++ [".gitignore"]) (directory : Path) :
    (DirectoryRules.ruleSet directory node names).rules = [] := by
  cases found : DirectoryRules.fileAt? node names with
  | none =>
    rw [DirectoryRules.ruleSet, found]
    rfl
  | some content =>
    have isFile : tree.nodeAt? (spot ++ names) = some (.file content) := by
      rw [nodeAt?_append, isNode]
      exact fileAt?_eq_some.1 found
    rw [rules_of_fileAt? found]
    exact sole _ (Node.mem_files isFile) isIgnoreFile other

theorem verdict_of_no_rules (none : set.rules = []) (path : String) (isDirectory : Bool) :
    set.verdict path isDirectory = .undecided :=
  RuleSet.decide_of_no_rules none _ isDirectory

def Rules.Follows (rules : Rules) (set : RuleSet) : Prop :=
  ∀ path relative isDirectory, rules.verdict path relative isDirectory = set.verdict path isDirectory

theorem nearest_enter {sets : DirectoryRules → RuleSet} {directory : Path}
    (none : (sets (DirectoryRules.of directory node)).rules = []) (path relative : String)
    (isDirectory : Bool) : (rules.enter directory node).nearest sets path relative isDirectory =
      rules.nearest sets path relative isDirectory := by
  simp [Rules.nearest, Rules.enter, verdict_of_no_rules none, Verdict.orElse]

theorem nearest_start {sets : DirectoryRules → RuleSet} {above : List DirectoryRules}
    (none : ∀ level ∈ above, (sets level).rules = []) (directory : Path) (node : Node)
    (start path relative : String) (isDirectory : Bool) :
    ((Rules.mk [] above start).enter directory node).nearest sets path relative isDirectory =
      (sets (DirectoryRules.of directory node)).verdict path isDirectory := by
  have still (absolute : String) :
      ∀ level ∈ above, (sets level).verdict absolute isDirectory = .undecided :=
    fun level member => verdict_of_no_rules (none level member) _ _
  simp only [Rules.nearest, Rules.enter]
  rw [RuleSet.foldl_orElse_undecided (still _)]
  rfl

section Sole

variable (sole : SoleIgnoreFile tree place)

include sole

theorem ignore_eq_nil {spot : List String} (isNode : tree.nodeAt? spot = some node)
    (directory : Path) : (DirectoryRules.of directory node).ignore.rules = [] := by
  refine rules_eq_nil sole isNode (.inl (List.suffix_append _ _)) (fun same => ?_) directory
  simpa using (List.append_inj_right' same rfl)

theorem exclude_eq_nil {spot : List String} (isNode : tree.nodeAt? spot = some node)
    (directory : Path) : (DirectoryRules.of directory node).exclude.rules = [] := by
  refine rules_eq_nil sole isNode (.inr (.inr (List.suffix_append _ _))) (fun same => ?_) directory
  simpa using congrArg List.getLast? same

theorem gitignore_eq_nil {spot : List String} (other : spot ≠ place)
    (isNode : tree.nodeAt? spot = some node) (directory : Path) :
    (DirectoryRules.of directory node).gitignore.rules = [] := by
  refine rules_eq_nil sole isNode (.inr (.inl (List.suffix_append _ _))) (fun same => ?_) directory
  exact other (List.append_inj_left' same rfl)

omit sole in
theorem exists_level_above {level : DirectoryRules} (member : level ∈ rulesAbove tree place) :
    ∃ spot node, spot ≠ place ∧ tree.nodeAt? spot = some node ∧
      level = DirectoryRules.of (pathOf spot) node := by
  obtain ⟨count, inside, isLevel⟩ := List.mem_filterMap.1 member
  obtain ⟨node, isNode, same⟩ := Option.map_eq_some_iff.1 isLevel
  have shorter : count < place.length := by simpa using inside
  refine ⟨place.take count, node, fun whole => ?_, isNode, same.symm⟩
  have length := congrArg List.length whole
  rw [List.length_take] at length
  omega

theorem follows_start (isNode : tree.nodeAt? place = some node) (start : String) :
    ((Rules.mk [] (rulesAbove tree place) start).enter (pathOf place) node).Follows
      (DirectoryRules.of (pathOf place) node).gitignore := by
  intro path relative isDirectory
  rw [Rules.verdict, nearest_start, nearest_start, nearest_start,
    verdict_of_no_rules (ignore_eq_nil sole isNode _),
    verdict_of_no_rules (exclude_eq_nil sole isNode _)]
  · generalize (DirectoryRules.of (pathOf place) node).gitignore.verdict path isDirectory = verdict
    cases verdict <;> rfl
  all_goals
    intro level member
    obtain ⟨spot, inner, other, isInner, rfl⟩ := exists_level_above member
  · exact exclude_eq_nil sole isInner _
  · exact gitignore_eq_nil sole other isInner _
  · exact ignore_eq_nil sole isInner _

theorem follows_enter {spot : List String} (follows : rules.Follows set) (other : spot ≠ place)
    (isNode : tree.nodeAt? spot = some node) : (rules.enter (pathOf spot) node).Follows set := by
  intro path relative isDirectory
  rw [Rules.verdict, nearest_enter (ignore_eq_nil sole isNode _),
    nearest_enter (gitignore_eq_nil sole other isNode _),
    nearest_enter (exclude_eq_nil sole isNode _)]
  exact follows path relative isDirectory

theorem exists_ignored_of_hides (directory : set.directory = (pathOf place).spelling)
    {spot : List String} (isSpot : spot = place ++ before) {relative : String}
    (steps : ∀ name ∈ spot ++ names, IsStep name) (isNode : tree.nodeAt? spot = some node)
    (file : node.at? names = some (.file content))
    (follows : (rules.enter (pathOf spot) node).Follows set)
    (hidden : hides (some rules) (pathOf spot) relative names node = true) :
    ∃ outer, outer ≠ [] ∧ outer <+: before ++ names ∧
      set.verdictOn (before ++ names) outer = .ignored := by
  induction names generalizing before spot relative node rules with
  | nil => cases node <;> cases hidden
  | cons name rest ih =>
    obtain ⟨entries, child, rfl, isChild, later⟩ := Node.at?_cons_eq_some file
    simp only [hides, isChild, Bool.or_eq_true] at hidden
    have next : spot ++ [name] = place ++ (before ++ [name]) := by
      rw [isSpot, List.append_assoc]
    have onward : (pathOf spot).child name = pathOf (spot ++ [name]) :=
      child_pathOf (fun step member => steps step (List.mem_append_left _ member))
        (steps name (by simp))
    rw [List.append_cons] at steps
    rcases hidden with ignored | inside
    · refine ⟨before ++ [name], by simp, ?_, ?_⟩
      · exact (List.prefix_append_right_inj before).2 ⟨rest, rfl⟩
      · have below : ∀ step ∈ before ++ [name], IsStep step := fun step member =>
          steps step (List.mem_append_left _ (next ▸ List.mem_append_right _ member))
        have isDirectory :
            child.isDirectory = decide (before ++ [name] ≠ before ++ name :: rest) := by
          cases rest with
          | nil =>
            obtain rfl := Option.some.inj later
            simp [Node.isDirectory]
          | cons next more =>
            obtain ⟨entries, -, rfl, -⟩ := Node.at?_cons_eq_some later
            simp [Node.isDirectory]
        simp only [enters, ignoresEntry, Option.map_some, decide_eq_true_eq] at ignored
        rw [follows, RuleSet.verdict, onward, next,
          RuleSet.relative_pathOf directory below (by simp), isDirectory] at ignored
        exact ignored
    · have isInner : tree.nodeAt? (spot ++ [name]) = some child := by
        rw [nodeAt?_append, isNode]
        simp [Node.at?, isChild]
      have other : spot ++ [name] ≠ place := by simp [next]
      rw [onward] at inside
      rw [List.append_cons]
      exact ih next steps isInner later (follows_enter sole follows other isInner) inside

theorem exists_ignored (steps : ∀ name ∈ place ++ names, IsStep name)
    (isNode : tree.nodeAt? place = some node) (file : node.at? names = some (.file content))
    (hidden : hides (startRules tree true place) (pathOf place) "" names node = true) :
    ∃ own outer, tree.contentAt? (place ++ [".gitignore"]) = some own ∧ outer ≠ [] ∧
      outer <+: names ∧ (RuleSet.ofFile (pathOf place) own).verdictOn names outer = .ignored := by
  have follows := follows_start sole isNode (pathOf place).spelling
  have here : place = place ++ [] := (List.append_nil place).symm
  cases own : DirectoryRules.fileAt? node [".gitignore"] with
  | none =>
    -- Without the file nothing is ignored.
    have none : (DirectoryRules.of (pathOf place) node).gitignore.rules = [] := by
      simp [DirectoryRules.of, DirectoryRules.ruleSet, own, RuleSet.empty]
    have silent : (Rules.enter ⟨[], rulesAbove tree place, (pathOf place).spelling⟩ (pathOf place)
        node).Follows ⟨(pathOf place).spelling, []⟩ := fun path relative isDirectory => by
      rw [follows, verdict_of_no_rules none, verdict_of_no_rules rfl]
    obtain ⟨outer, -, -, ignored⟩ :=
      exists_ignored_of_hides sole rfl here steps isNode file silent hidden
    cases ignored
  | some content =>
    have isOwn : tree.contentAt? (place ++ [".gitignore"]) = some content := by
      rw [contentAt?_eq_some, nodeAt?_append, isNode]
      exact fileAt?_eq_some.1 own
    have same : (DirectoryRules.of (pathOf place) node).gitignore =
        RuleSet.ofFile (pathOf place) content := by
      simp [DirectoryRules.of, DirectoryRules.ruleSet, own]
    rw [same] at follows
    obtain ⟨outer, isOuter, below, ignored⟩ := exists_ignored_of_hides sole
      (RuleSet.directory_ofFile place content) here steps isNode file follows hidden
    exact ⟨content, outer, isOwn, isOuter, below, ignored⟩

end Sole

end UtilityCss.Ignore
