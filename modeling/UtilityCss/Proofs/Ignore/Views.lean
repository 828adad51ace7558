import Mathlib.Data.List.Forall2
import UtilityCss.Proofs.Ignore.SoleFile
import UtilityCss.Proofs.Path.NormalForm

set_option autoImplicit false

namespace UtilityCss

open UtilityCss.Path FileTree

namespace Path

variable {p : Path} {name : String} {texts names : List String} {absolute : Bool}

def IsSpelled (p : Path) : Prop :=
  ∃ absolute texts, (∀ text ∈ texts, IsStep text) ∧ p = spelled absolute texts ∧ p.spelling ≠ ""

theorem isSpelled_normalize (spoken : p.normalize.spelling ≠ "") : p.normalize.IsSpelled :=
  ⟨_, _, (isReading_reading p).isStep, normalize_eq p, spoken⟩

theorem foldl_child_spelled (steps : ∀ text ∈ texts, IsStep text)
    (further : ∀ name ∈ names, IsStep name) (absolute : Bool) :
    names.foldl child (spelled absolute texts) = spelled absolute (texts ++ names) := by
  induction names generalizing texts with
  | nil => simp
  | cons name rest ih =>
    obtain ⟨step, others⟩ := List.forall_mem_cons.1 further
    rw [List.foldl_cons, child_spelled steps step, ih _ others, List.append_assoc,
      List.singleton_append]
    exact List.forall_mem_append.2 ⟨steps, List.forall_mem_singleton.2 step⟩

def stem (p : Path) : List Char := if p.spelling = "/" then [] else p.spelling.toList

theorem spelling_spelled_eq_slash (steps : ∀ text ∈ texts, IsStep text) :
    (spelled absolute texts).spelling = "/" ↔ absolute = true ∧ texts = [] := by
  constructor
  · intro root
    obtain rfl : absolute = true := by
      rw [← isAbsolute_spelled steps absolute, isAbsolute, root]
      decide
    exact ⟨rfl, eq_of_pathOf_eq steps (by simp) (congrArg Path.mk root)⟩
  · rintro ⟨rfl, rfl⟩
    rfl

theorem IsSpelled.toList_foldl_child (isSpelled : p.IsSpelled)
    (steps : ∀ name ∈ names, IsStep name) (nonempty : names ≠ []) :
    (names.foldl child p).spelling.toList =
      p.stem ++ '/' :: (Ignore.RuleSet.seen names).toList := by
  obtain ⟨absolute, texts, areSteps, rfl, spoken⟩ := isSpelled
  rw [foldl_child_spelled areSteps steps, stem]
  simp only [spelling_spelled_eq_slash areSteps]
  cases absolute with
  | true =>
    simp only [true_and]
    exact Ignore.RuleSet.toList_pathOf_append nonempty texts
  | false =>
    have some : texts ≠ [] := (spelling_relativeOf_eq_empty areSteps).not.1 spoken
    rw [if_neg (by simp), Ignore.RuleSet.toList_seen]
    change (relativeOf (texts ++ names)).spelling.toList = (relativeOf texts).spelling.toList ++ _
    rw [toList_relativeOf, toList_relativeOf, List.map_append,
      Text.intercalate_append ['/'] (by simpa using some) (by simpa using nonempty)]
    simp

theorem IsSpelled.child (isSpelled : p.IsSpelled) (step : IsStep name) :
    (p.child name).IsSpelled := by
  have spoken : (p.child name).spelling ≠ "" := spelling_child_ne_empty p step
  obtain ⟨absolute, texts, areSteps, rfl, -⟩ := isSpelled
  refine ⟨absolute, texts ++ [name], ?_, child_spelled areSteps step absolute, spoken⟩
  exact List.forall_mem_append.2 ⟨areSteps, List.forall_mem_singleton.2 step⟩

theorem IsSpelled.foldl_child (isSpelled : p.IsSpelled) (steps : ∀ name ∈ names, IsStep name) :
    (names.foldl Path.child p).IsSpelled := by
  induction names generalizing p with
  | nil => exact isSpelled
  | cons name rest ih =>
    obtain ⟨step, others⟩ := List.forall_mem_cons.1 steps
    exact ih (isSpelled.child step) others

theorem IsSpelled.split_ne (isSpelled : p.IsSpelled) (rest : List (List Char)) :
    Text.split '/' p.spelling.toList ≠ ['.'] :: rest := by
  obtain ⟨absolute, texts, areSteps, rfl, spoken⟩ := isSpelled
  cases absolute with
  | true =>
    change Text.split '/' (pathOf texts).spelling.toList ≠ _
    rw [split_pathOf areSteps]
    simp
  | false =>
    have some : texts ≠ [] := (spelling_relativeOf_eq_empty areSteps).not.1 spoken
    change Text.split '/' (relativeOf texts).spelling.toList ≠ _
    rw [split_relativeOf areSteps, if_neg some]
    intro same
    obtain ⟨first, more, rfl, here, -⟩ := List.map_eq_cons_iff.1 same
    exact (areSteps first List.mem_cons_self).speaks (.inr here)

end Path

namespace Ignore

variable {tree : FileTree} {p q : Path} {node : Node} {names : List String} {name relative : String}
  {set other : RuleSet} {level second : DirectoryRules} {rules others : Rules}

theorem dropDot_of_isSpelled (isSpelled : p.IsSpelled) :
    RuleSet.dropDot p.spelling.toList = p.spelling.toList := by
  cases found : ['.', '/'].isPrefixOf? p.spelling.toList with
  | none => rw [RuleSet.dropDot, found, Option.getD_none]
  | some rest =>
    have whole : p.spelling.toList = ['.'] ++ '/' :: rest :=
      (List.isPrefixOf?_eq_some_iff_append_eq.1 found).symm
    have split := congrArg (Text.split '/') whole
    rw [Text.split_append_cons] at split
    exact absurd split (isSpelled.split_ne _)

def Fits (p : Path) (directory : List Char) : Prop :=
  directory = p.spelling.toList ∨ p.spelling ≠ "/" ∧ directory = p.spelling.toList ++ ['/']

theorem relative_foldl_child (isSpelled : p.IsSpelled) (fits : Fits p set.directory.toList)
    (steps : ∀ name ∈ names, IsStep name) (nonempty : names ≠ []) :
    set.relative (names.foldl Path.child p).spelling = RuleSet.seen names := by
  have text := isSpelled.toList_foldl_child steps nonempty
  have here : set.directory ≠ "." := by
    intro dot
    rw [dot] at fits
    rcases fits with same | ⟨-, same⟩
    · have split : Text.split '/' p.spelling.toList = [['.']] := by rw [← same]; rfl
      exact isSpelled.split_ne [] split
    · have last := congrArg List.getLast? same
      simp at last
  have slash : '/' ∈ (names.foldl Path.child p).spelling.toList := by simp [text]
  rw [RuleSet.relative, dropDot_of_isSpelled (isSpelled.foldl_child steps),
    if_neg (by simp [here, slash]), text, Path.stem]
  by_cases root : p.spelling = "/"
  · have own : set.directory.toList = ['/'] := by
      rcases fits with same | ⟨other, -⟩
      · rw [same, root]
        rfl
      · exact absurd root other
    have begins : ['/'].isPrefixOf? ('/' :: (RuleSet.seen names).toList) =
        some (RuleSet.seen names).toList := by
      rw [List.isPrefixOf?_eq_some_iff_append_eq]
      rfl
    simp [root, own, begins, RuleSet.slash_free_seen steps]
  · rw [if_neg root]
    rcases fits with same | ⟨-, same⟩
    · have begins : set.directory.toList.isPrefixOf?
          (p.spelling.toList ++ '/' :: (RuleSet.seen names).toList) =
            some ('/' :: (RuleSet.seen names).toList) := by
        rw [same, List.isPrefixOf?_eq_some_iff_append_eq]
      simp [begins, List.isPrefixOf?]
    · have begins : set.directory.toList.isPrefixOf?
          (p.spelling.toList ++ '/' :: (RuleSet.seen names).toList) =
            some (RuleSet.seen names).toList := by
        rw [same, List.isPrefixOf?_eq_some_iff_append_eq]
        simp
      simp [begins, RuleSet.slash_free_seen steps]

theorem RuleSet.decide_congr (same : set.rules = other.rules) (text : String) (isDirectory : Bool) :
    set.decide text isDirectory = other.decide text isDirectory := by
  rw [RuleSet.decide, RuleSet.decide, same]

def Alike (p q : Path) (set other : RuleSet) : Prop :=
  ∀ names, names ≠ [] → (∀ name ∈ names, IsStep name) → ∀ isDirectory,
    set.verdict (names.foldl Path.child p).spelling isDirectory =
      other.verdict (names.foldl Path.child q).spelling isDirectory

theorem Alike.child (alike : Alike p q set other) (step : IsStep name) :
    Alike (p.child name) (q.child name) set other := fun names _ steps =>
  alike (name :: names) (List.cons_ne_nil name names) (List.forall_mem_cons.2 ⟨step, steps⟩)

theorem alike_ruleSet (isSpelled : p.IsSpelled) (spelled : q.IsSpelled) (node : Node)
    (file : List String) :
    Alike p q (DirectoryRules.ruleSet p node file) (DirectoryRules.ruleSet q node file) := by
  intro names nonempty steps isDirectory
  rw [DirectoryRules.ruleSet, DirectoryRules.ruleSet]
  cases DirectoryRules.fileAt? node file with
  | none => rfl
  | some content =>
    have first : Fits p (RuleSet.ofFile p content).directory.toList :=
      .inl (by rw [RuleSet.ofFile, String.toList_ofList, dropDot_of_isSpelled isSpelled])
    have second : Fits q (RuleSet.ofFile q content).directory.toList :=
      .inl (by rw [RuleSet.ofFile, String.toList_ofList, dropDot_of_isSpelled spelled])
    dsimp only
    rw [RuleSet.verdict, RuleSet.verdict, relative_foldl_child isSpelled first steps nonempty,
      relative_foldl_child spelled second steps nonempty]
    exact RuleSet.decide_congr rfl _ _

structure LevelsAlike (p q : Path) (level second : DirectoryRules) : Prop where
  ignore : Alike p q level.ignore second.ignore
  gitignore : Alike p q level.gitignore second.gitignore
  exclude : Alike p q level.exclude second.exclude

theorem LevelsAlike.child (alike : LevelsAlike p q level second) (step : IsStep name) :
    LevelsAlike (p.child name) (q.child name) level second :=
  ⟨alike.ignore.child step, alike.gitignore.child step, alike.exclude.child step⟩

theorem levelsAlike_of (isSpelled : p.IsSpelled) (spelled : q.IsSpelled) (node : Node) :
    LevelsAlike p q (DirectoryRules.of p node) (DirectoryRules.of q node) :=
  ⟨alike_ruleSet isSpelled spelled node _, alike_ruleSet isSpelled spelled node _,
    alike_ruleSet isSpelled spelled node _⟩

structure RulesAlike (p q : Path) (rules others : Rules) : Prop where
  walked : List.Forall₂ (LevelsAlike p q) rules.walked others.walked
  above : rules.above = others.above
  place : rules.place = others.place

theorem RulesAlike.enter (alike : RulesAlike p q rules others) (isSpelled : p.IsSpelled)
    (spelled : q.IsSpelled) (node : Node) :
    RulesAlike p q (rules.enter p node) (others.enter q node) :=
  ⟨.cons (levelsAlike_of isSpelled spelled node) alike.walked, alike.above, alike.place⟩

theorem RulesAlike.child (alike : RulesAlike p q rules others) (step : IsStep name) :
    RulesAlike (p.child name) (q.child name) rules others :=
  ⟨alike.walked.imp fun _ _ levels => levels.child step, alike.above, alike.place⟩

theorem foldl_verdict_congr {sets : DirectoryRules → RuleSet} {levels seconds : List DirectoryRules}
    (walked : List.Forall₂ (LevelsAlike p q) levels seconds)
    (each : ∀ level second, LevelsAlike p q level second → Alike p q (sets level) (sets second))
    (step : IsStep name) (isDirectory : Bool) (start : Verdict) :
    levels.foldl (fun verdict level => verdict.orElse
        ((sets level).verdict (p.child name).spelling isDirectory)) start =
      seconds.foldl (fun verdict level => verdict.orElse
        ((sets level).verdict (q.child name).spelling isDirectory)) start := by
  induction walked generalizing start with
  | nil => rfl
  | cons alike _ ih =>
    have same : (sets _).verdict (p.child name).spelling isDirectory =
        (sets _).verdict (q.child name).spelling isDirectory :=
      each _ _ alike [name] (List.cons_ne_nil name []) (List.forall_mem_singleton.2 step) isDirectory
    rw [List.foldl_cons, List.foldl_cons, same, ih]

theorem nearest_congr {sets : DirectoryRules → RuleSet} (alike : RulesAlike p q rules others)
    (each : ∀ level second, LevelsAlike p q level second → Alike p q (sets level) (sets second))
    (step : IsStep name) (relative : String) (isDirectory : Bool) :
    rules.nearest sets (p.child name).spelling relative isDirectory =
      others.nearest sets (q.child name).spelling relative isDirectory := by
  rw [Rules.nearest, Rules.nearest, alike.above, alike.place,
    foldl_verdict_congr alike.walked each step]

theorem verdict_congr (alike : RulesAlike p q rules others) (step : IsStep name)
    (relative : String) (isDirectory : Bool) :
    rules.verdict (p.child name).spelling relative isDirectory =
      others.verdict (q.child name).spelling relative isDirectory := by
  rw [Rules.verdict, Rules.verdict, nearest_congr alike (fun _ _ levels => levels.ignore) step,
    nearest_congr alike (fun _ _ levels => levels.gitignore) step,
    nearest_congr alike (fun _ _ levels => levels.exclude) step]

theorem hides_of_rulesAlike (alike : RulesAlike p q rules others) (isSpelled : p.IsSpelled)
    (spelled : q.IsSpelled) (steps : ∀ name ∈ names, IsStep name) (relative : String)
    (node : Node) : hides (some rules) p relative names node =
      hides (some others) q relative names node := by
  induction names generalizing p q rules others relative node with
  | nil => cases node <;> rfl
  | cons name rest ih =>
    obtain ⟨step, further⟩ := List.forall_mem_cons.1 steps
    cases node with
    | file content => rfl
    | directory entries =>
      simp only [hides, enters, Option.map_some]
      cases Table.get? name entries with
      | none => rfl
      | some inner =>
        have inside := alike.enter isSpelled spelled (.directory entries)
        have here : ignoresEntry (some (rules.enter p (.directory entries))) p relative name inner =
            ignoresEntry (some (others.enter q (.directory entries))) q relative name inner := by
          simp only [ignoresEntry, verdict_congr inside step]
        simp only [here, ih (inside.child step) (isSpelled.child step) (spelled.child step) further]

theorem hides_congr (isSpelled : p.IsSpelled) (spelled : q.IsSpelled)
    (steps : ∀ name ∈ names, IsStep name) (tree : FileTree) (respect : Bool) (place : List String)
    (relative : String) (node : Node) :
    hides (startRules tree respect place) p relative names node =
      hides (startRules tree respect place) q relative names node := by
  unfold startRules
  split_ifs
  · exact hides_of_rulesAlike ⟨.nil, rfl, rfl⟩ isSpelled spelled steps relative node
  · rw [hides_none, hides_none]

end Ignore

end UtilityCss
