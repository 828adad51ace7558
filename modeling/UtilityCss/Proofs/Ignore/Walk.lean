import UtilityCss.Ignore.Walk
import UtilityCss.Proofs.FileTree

set_option autoImplicit false

namespace UtilityCss.Ignore

variable {tree : FileTree} {node : Node} {entries : List (String × Node)} {name : String}
  {names texts : List String} {path found root : Path} {relative : String}

def behind (relative name : String) : String :=
  if relative = "" then name else relative ++ "/" ++ name

def ignoresEntry (rules : Option Rules) (path : Path) (relative name : String) (node : Node) :
    Bool :=
  match rules with
  | some rules => rules.verdict (path.child name).spelling (behind relative name) node.isDirectory =
      .ignored
  | none => false

def enters (rules : Option Rules) (path : Path) (entries : List (String × Node)) : Option Rules :=
  rules.map fun rules => rules.enter path (.directory entries)

def hides (rules : Option Rules) (path : Path) (relative : String) : List String → Node → Bool
  | name :: rest, .directory entries =>
    match Table.get? name entries with
    | some node =>
      ignoresEntry (enters rules path entries) path relative name node ||
        hides (enters rules path entries) (path.child name) (behind relative name) rest node
    | none => false
  | _, _ => false

theorem walkEntries_cons (rules : Option Rules) (path : Path) (relative name : String) (node : Node)
    (rest : List (String × Node)) :
    walkEntries rules path relative ((name, node) :: rest) =
      (if ignoresEntry rules path relative name node then []
        else walkNode rules (path.child name) (behind relative name) node) ++
        walkEntries rules path relative rest := by
  cases rules <;> cases node <;> simp only [walkEntries] <;> rfl

theorem mem_walkEntries {rules : Option Rules} :
    found ∈ walkEntries rules path relative entries ↔ ∃ name node, (name, node) ∈ entries ∧
      ignoresEntry rules path relative name node = false ∧
        found ∈ walkNode rules (path.child name) (behind relative name) node := by
  induction entries with
  | nil => simp [walkEntries]
  | cons entry rest ih =>
    obtain ⟨first, inside⟩ := entry
    rw [walkEntries_cons, List.mem_append, ih]
    constructor
    · rintro (here | ⟨name, node, member, later⟩)
      · split_ifs at here with ignored
        · cases here
        · exact ⟨first, inside, List.mem_cons_self, Bool.eq_false_iff.2 ignored, here⟩
      · exact ⟨name, node, List.mem_cons_of_mem _ member, later⟩
    · rintro ⟨name, node, member, kept, here⟩
      rcases List.mem_cons.1 member with same | later
      · obtain ⟨rfl, rfl⟩ := Prod.mk.inj same
        exact .inl (by rwa [kept, if_neg Bool.false_ne_true])
      · exact .inr ⟨name, node, later, kept, here⟩

theorem mem_walkNode (rules : Option Rules) (path : Path) (relative : String) (used : Nat) :
    (node : Node) → node.isProper used = true →
    (found ∈ walkNode rules path relative node ↔ ∃ names content,
      node.at? names = some (.file content) ∧ found = names.foldl Path.child path ∧
        hides rules path relative names node = false)
  | .file content, _ => by
    rw [walkNode, List.mem_singleton]
    constructor
    · rintro rfl
      exact ⟨[], content, rfl, rfl, rfl⟩
    · rintro ⟨names, content, isFile, rfl, -⟩
      cases names with
      | nil => rfl
      | cons name rest => cases isFile
  | .directory entries, proper => by
    rw [walkNode, mem_walkEntries]
    constructor
    · rintro ⟨name, node, member, kept, here⟩
      have below := (Node.entry_of_isProper proper member).2
      obtain ⟨rest, content, isFile, rfl, free⟩ := (mem_walkNode _ _ _ _ node below).1 here
      have isEntry := (Table.get?_eq_some_iff (Node.distinct_of_isProper proper)).2 member
      refine ⟨name :: rest, content, ?_, rfl, ?_⟩
      · simp [Node.at?, isEntry, isFile]
      · simp [hides, isEntry, enters, kept, free]
    · rintro ⟨names, content, isFile, same, free⟩
      cases names with
      | nil => cases isFile
      | cons name rest =>
        obtain ⟨node, isEntry, inside⟩ := Option.bind_eq_some_iff.1 isFile
        have member := Table.mem_of_get? isEntry
        have below := (Node.entry_of_isProper proper member).2
        simp only [hides, isEntry, Bool.or_eq_false_iff] at free
        exact ⟨name, node, member, free.1,
          (mem_walkNode _ _ _ _ node below).2 ⟨rest, content, inside, same, free.2⟩⟩
termination_by node => sizeOf node
decreasing_by
  all_goals
    have smaller := List.sizeOf_lt_of_mem member
    simp at smaller ⊢
    omega

def startRules (tree : FileTree) (respect : Bool) (place : List String) : Option Rules :=
  if respect then some ⟨[], rulesAbove tree place, (FileTree.pathOf place).spelling⟩ else none

theorem walk_eq {place : List String} (located : tree.locate root = .ok place)
    (isNode : tree.nodeAt? place = some node) (respect : Bool) :
    walk tree respect root = walkNode (startRules tree respect place) root "" node := by
  simp [walk, located, isNode, startRules]

theorem mem_walk (proper : tree.Proper) (respect : Bool) :
    found ∈ walk tree respect root ↔ ∃ place names node, tree.locate root = .ok place ∧
      tree.nodeAt? place = some node ∧ (tree.contentAt? (place ++ names)).isSome ∧
        found = names.foldl Path.child root ∧
          hides (startRules tree respect place) root "" names node = false := by
  have file {place names : List String} {node : Node} (isNode : tree.nodeAt? place = some node) :
      (tree.contentAt? (place ++ names)).isSome ↔
        ∃ content, node.at? names = some (.file content) := by
    rw [Option.isSome_iff_exists]
    simp only [FileTree.contentAt?_eq_some, FileTree.nodeAt?_append, isNode, Option.bind_some]
  constructor
  · intro member
    cases located : tree.locate root with
    | error fault => simp [walk, located] at member
    | ok place =>
      cases isNode : tree.nodeAt? place with
      | none => simp [walk, located, isNode] at member
      | some node =>
        rw [walk_eq located isNode,
          mem_walkNode _ _ _ _ node (Node.at?_of_isProper proper isNode).1] at member
        obtain ⟨names, content, isFile, same, free⟩ := member
        exact ⟨place, names, node, rfl, isNode, (file isNode).2 ⟨content, isFile⟩, same, free⟩
  · rintro ⟨place, names, node, located, isNode, isFile, same, free⟩
    obtain ⟨content, isContent⟩ := (file isNode).1 isFile
    rw [walk_eq located isNode, mem_walkNode _ _ _ _ node (Node.at?_of_isProper proper isNode).1]
    exact ⟨names, content, isContent, same, free⟩

theorem hides_none (path : Path) (relative : String) (names : List String) (node : Node) :
    hides none path relative names node = false := by
  induction names generalizing path relative node with
  | nil => cases node <;> rfl
  | cons name rest ih =>
    cases node with
    | file content => rfl
    | directory entries =>
      rw [hides]
      split
      · simp [enters, ignoresEntry, ih]
      · rfl

theorem mem_full_walk (proper : tree.Proper) :
    found ∈ walk tree false root ↔ tree.HasFileBelow root found := by
  rw [mem_walk proper]
  constructor
  · rintro ⟨place, names, node, located, -, file, same, -⟩
    exact ⟨place, names, located, same, file⟩
  · rintro ⟨place, names, located, same, file⟩
    have start : (tree.nodeAt? place).isSome :=
      FileTree.nodeAt?_of_above (FileTree.isSome_nodeAt? file) (List.prefix_append place names)
    obtain ⟨node, isNode⟩ := Option.isSome_iff_exists.1 start
    exact ⟨place, names, node, located, isNode, file, same, hides_none _ _ _ _⟩

section Places

open UtilityCss.Path FileTree

variable (proper : tree.Proper) (steps : ∀ text ∈ texts, IsStep text)
  (file : (tree.contentAt? names).isSome)

include proper steps file

theorem mem_walk_pathOf (respect : Bool) :
    pathOf names ∈ walk tree respect (pathOf texts) ↔ ∃ rest node, names = texts ++ rest ∧
      tree.nodeAt? texts = some node ∧
        hides (startRules tree respect texts) (pathOf texts) "" rest node = false := by
  have isNames := proper.isStep_of_file file
  constructor
  · intro member
    obtain ⟨place, rest, node, located, isNode, inside, same, free⟩ :=
      (mem_walk proper respect).1 member
    have further := (List.forall_mem_append.1 (proper.isStep_of_file inside)).2
    rw [foldl_child_pathOf steps further] at same
    have whole : names = texts ++ rest :=
      eq_of_pathOf_eq isNames (List.forall_mem_append.2 ⟨steps, further⟩) same
    have start : (tree.nodeAt? texts).isSome :=
      nodeAt?_of_above (isSome_nodeAt? file) (whole ▸ List.prefix_append texts rest)
    rw [locate_pathOf proper start, Except.ok.injEq] at located
    subst located
    exact ⟨rest, node, whole, isNode, free⟩
  · rintro ⟨rest, node, rfl, isNode, free⟩
    have start : (tree.nodeAt? texts).isSome := by simp [isNode]
    refine (mem_walk proper respect).2
      ⟨texts, rest, node, locate_pathOf proper start, isNode, file, ?_, free⟩
    exact (foldl_child_pathOf steps (List.forall_mem_append.1 isNames).2).symm

theorem mem_full_walk_pathOf : pathOf names ∈ walk tree false (pathOf texts) ↔
    (pathOf names).startsWith (pathOf texts) = true := by
  rw [mem_walk_pathOf proper steps file, startsWith_pathOf (proper.isStep_of_file file) steps]
  constructor
  · rintro ⟨rest, node, rfl, -, -⟩
    exact List.prefix_append texts rest
  · intro before
    obtain ⟨node, isNode⟩ :=
      Option.isSome_iff_exists.1 (nodeAt?_of_above (isSome_nodeAt? file) before)
    obtain ⟨rest, rfl⟩ := before
    exact ⟨rest, node, rfl, isNode, hides_none _ _ _ _⟩

end Places

end UtilityCss.Ignore
