import Mathlib.Data.List.Basic
import Mathlib.Tactic.SplitIfs
import UtilityCss.Project.Places
import UtilityCss.Source.Selector

set_option autoImplicit false

namespace UtilityCss

namespace Node

mutual

def outline : Node → Node
  | .file _ => .file ByteArray.empty
  | .directory entries => .directory (entryOutlines entries)

def entryOutlines : List (String × Node) → List (String × Node)
  | [] => []
  | (name, node) :: rest => (name, node.outline) :: entryOutlines rest

end

theorem get?_entryOutlines (name : String) (entries : List (String × Node)) :
    Table.get? name (entryOutlines entries) = (Table.get? name entries).map outline := by
  induction entries with
  | nil => rfl
  | cons entry rest ih =>
    obtain ⟨other, node⟩ := entry
    rw [entryOutlines, Table.get?, Table.get?, ih]
    split_ifs <;> rfl

theorem at?_outline (names : List String) (node : Node) :
    node.outline.at? names = (node.at? names).map outline := by
  induction names generalizing node with
  | nil => simp [at?]
  | cons name rest ih =>
    cases node with
    | file content => rfl
    | directory entries =>
      rw [outline, at?, at?, get?_entryOutlines]
      cases Table.get? name entries with
      | none => rfl
      | some inner => exact ih inner

end Node

namespace FileTree

def outline (tree : FileTree) : FileTree := { tree with entries := Node.entryOutlines tree.entries }

variable {tree other : FileTree}

theorem nodeAt?_outline (tree : FileTree) (names : List String) :
    tree.outline.nodeAt? names = (tree.nodeAt? names).map Node.outline :=
  Node.at?_outline names tree.root

theorem step_outline (tree : FileTree) : tree.outline.step = tree.step := by
  funext place piece
  rw [FileTree.step, FileTree.step, nodeAt?_outline]
  rcases tree.nodeAt? place with _ | (content | entries)
  · rfl
  · rfl
  · have listed (name : String) : Table.contains name (Node.entryOutlines entries) =
        Table.contains name entries := by
      rw [Table.contains, Node.get?_entryOutlines, Option.isSome_map, Table.contains]
    simp only [Option.map_some, Node.outline, listed]

theorem locate_outline (tree : FileTree) (p : Path) : tree.outline.locate p = tree.locate p := by
  rw [locate, locate, step_outline]
  rfl

theorem locate_congr (same : tree.outline = other.outline) (p : Path) :
    tree.locate p = other.locate p := by
  rw [← locate_outline tree, same, locate_outline]

theorem canonicalize_congr (same : tree.outline = other.outline) (p : Path) :
    tree.canonicalize p = other.canonicalize p := by
  rw [canonicalize, canonicalize, locate_congr same]

theorem absolute_congr (same : tree.outline = other.outline) (p : Path) :
    tree.absolute p = other.absolute p := by
  have home : tree.workingDirectory = other.workingDirectory := by
    simpa only [outline] using congrArg workingDirectory same
  rw [absolute, absolute, workingPath, workingPath, home]

end FileTree

namespace Ignore

mutual

theorem walkNode_outline (path : Path) (relative : String) :
    (node : Node) → walkNode none path relative node.outline = walkNode none path relative node
  | .file _ => rfl
  | .directory entries => by
    rw [Node.outline, walkNode, walkNode]
    exact walkEntries_outline path relative entries

theorem walkEntries_outline (path : Path) (relative : String) :
    (entries : List (String × Node)) →
      walkEntries none path relative (Node.entryOutlines entries) =
        walkEntries none path relative entries
  | [] => rfl
  | (name, node) :: rest => by
    simp only [Node.entryOutlines, walkEntries, walkNode_outline _ _ node,
      walkEntries_outline path relative rest]

end

theorem walk_outline (tree : FileTree) (path : Path) :
    walk tree.outline false path = walk tree false path := by
  rw [walk, walk, FileTree.locate_outline]
  cases tree.locate path with
  | error fault => rfl
  | ok names =>
    simp only [FileTree.nodeAt?_outline]
    cases tree.nodeAt? names with
    | none => rfl
    | some node => exact walkNode_outline path "" node

end Ignore

namespace SourceSelector

variable {tree other : FileTree}

theorem declaredFiles_outline (selector : SourceSelector) (tree : FileTree) :
    selector.declaredFiles tree.outline = selector.declaredFiles tree := by
  have walks : ∀ walk ∈ selector.walks.filter fun walk => !walk.respectsIgnoreFiles,
      Ignore.walk tree.outline walk.respectsIgnoreFiles walk.root =
        Ignore.walk tree walk.respectsIgnoreFiles walk.root := by
    intro walk member
    have free : walk.respectsIgnoreFiles = false := by simpa using (List.mem_filter.1 member).2
    rw [free, Ignore.walk_outline]
  simp only [declaredFiles, collect, walked, List.flatMap_congr walks]

theorem declaredFiles_congr (selector : SourceSelector) (rules : List (Path × Ignore.RuleSet))
    (same : tree.outline = other.outline) :
    SourceSelector.declaredFiles { selector with ignoreFiles := rules } other =
      selector.declaredFiles tree := by
  rw [← declaredFiles_outline selector tree, same, declaredFiles_outline]
  rfl

end SourceSelector

end UtilityCss
