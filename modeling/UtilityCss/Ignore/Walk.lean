import UtilityCss.FileTree
import UtilityCss.Ignore.Rule

set_option autoImplicit false

namespace UtilityCss.Ignore

/-- The rules that a directory has for what is below it. -/
structure DirectoryRules where
  ignore : RuleSet
  gitignore : RuleSet
  exclude : RuleSet

namespace DirectoryRules

def fileAt? (node : Node) (names : List String) : Option ByteArray :=
  match node.at? names with
  | some (.file content) => some content
  | _ => none

def ruleSet (directory : Path) (node : Node) (names : List String) : RuleSet :=
  match fileAt? node names with
  | some content => RuleSet.ofFile directory content
  | none => RuleSet.empty

def of (directory : Path) (node : Node) : DirectoryRules where
  ignore := ruleSet directory node [".ignore"]
  gitignore := ruleSet directory node [".gitignore"]
  exclude := ruleSet directory node [".git", "info", "exclude"]

end DirectoryRules

/-- The rules in force at a directory, the nearest first: those of the directories of the walk, and
those of the directories above it, which see the absolute place of the walk. -/
structure Rules where
  walked : List DirectoryRules
  above : List DirectoryRules
  place : String

namespace Rules

def nearest (rules : Rules) (sets : DirectoryRules → RuleSet) (path relative : String)
    (isDirectory : Bool) : Verdict :=
  let below := rules.walked.foldl
    (fun verdict level => verdict.orElse ((sets level).verdict path isDirectory)) .undecided
  let absolute := (Path.mk rules.place).child relative
  rules.above.foldl
    (fun verdict level => verdict.orElse ((sets level).verdict absolute.spelling isDirectory)) below

def verdict (rules : Rules) (path relative : String) (isDirectory : Bool) : Verdict :=
  ((rules.nearest DirectoryRules.ignore path relative isDirectory).orElse
    (rules.nearest DirectoryRules.gitignore path relative isDirectory)).orElse
    (rules.nearest DirectoryRules.exclude path relative isDirectory)

def enter (rules : Rules) (directory : Path) (node : Node) : Rules :=
  { rules with walked := DirectoryRules.of directory node :: rules.walked }

end Rules

mutual

def walkNode (rules : Option Rules) (path : Path) (relative : String) : Node → List Path
  | .file _ => [path]
  | .directory entries =>
    walkEntries (rules.map fun rules => rules.enter path (.directory entries)) path relative entries

def walkEntries (rules : Option Rules) (path : Path) (relative : String) :
    List (String × Node) → List Path
  | [] => []
  | (name, node) :: rest =>
    let child := path.child name
    let relative' := if relative = "" then name else relative ++ "/" ++ name
    let isDirectory := match node with
      | .directory _ => true
      | .file _ => false
    let ignored : Bool := match rules with
      | some rules => rules.verdict child.spelling relative' isDirectory = .ignored
      | none => false
    -- Nothing inside an ignored directory is looked at, whatever its own rules include.
    (if ignored then [] else walkNode rules child relative' node) ++
      walkEntries rules path relative rest

end

def rulesAbove (tree : FileTree) (names : List String) : List DirectoryRules :=
  (List.range names.length).reverse.filterMap fun count =>
    (tree.nodeAt? (names.take count)).map (DirectoryRules.of (FileTree.pathOf (names.take count)))

def walk (tree : FileTree) (respect : Bool) (path : Path) : List Path :=
  match tree.locate path with
  | .error _ => []
  | .ok names =>
    match tree.nodeAt? names with
    | none => []
    | some node =>
      let rules : Option Rules :=
        if respect then some ⟨[], rulesAbove tree names, (FileTree.pathOf names).spelling⟩ else none
      walkNode rules path "" node

end UtilityCss.Ignore
