import UtilityCss.Ignore.Walk
import UtilityCss.Source.Catalog
import UtilityCss.Source.Kinds

/-!
Which files are sources. Exclusions come first, then declared sources, then what the project as a
whole covers and no ignore file of its directory excludes.
-/

set_option autoImplicit false

namespace UtilityCss

open Source

/-- A walk through a directory, with ignore files in force or not. -/
structure SourceWalk where
  root : Path
  respectsIgnoreFiles : Bool
  deriving DecidableEq, Repr

def SourceWalk.same (first second : SourceWalk) : Bool :=
  first.root.same second.root && first.respectsIgnoreFiles = second.respectsIgnoreFiles

structure SourceSelector where
  defaults : List Glob
  declared : List Glob
  excluded : List Glob
  ignoreFiles : List (Path × Ignore.RuleSet)
  walks : List SourceWalk
  roots : List Path

namespace SourceSelector

def readGlobs : List Entry → Except BuildError (List Glob)
  | [] => .ok []
  | entry :: rest =>
    match Glob.read false entry.glob with
    | .error fault => .error (.invalidGlob entry.glob (fault.describe entry.glob))
    | .ok glob => (readGlobs rest).map (glob :: ·)

def ignoreFile? (tree : FileTree) (base : Path) : Option (Path × Ignore.RuleSet) :=
  match tree.readBytes (base.child ".gitignore") with
  | .ok content =>
    let rules := Ignore.RuleSet.ofFile base content
    some (⟨rules.directory⟩, rules)
  | .error _ => none

def walksOf (catalog : SourceCatalog) : List SourceWalk :=
  let wanted := catalog.sources.map fun entry =>
    SourceWalk.mk (fixedStart entry.glob) (entry.origin = .default)
  wanted.foldl (fun walks walk => if walks.any walk.same then walks else walks ++ [walk]) []

def ofCatalog (tree : FileTree) (catalog : SourceCatalog) : Except BuildError SourceSelector := do
  let defaults ← readGlobs (catalog.entriesOf .default)
  let declared ← readGlobs (catalog.entriesOf .declared)
  let excluded ← readGlobs catalog.exclusions
  return {
    defaults := defaults
    declared := declared
    excluded := excluded
    ignoreFiles := (catalog.entriesOf .default).filterMap fun entry => ignoreFile? tree entry.base
    walks := walksOf catalog
    roots := catalog.roots }

def matchesAny (globs : List Glob) (path : Path) : Bool :=
  globs.any fun glob => glob.isMatch path.spelling

/-- Whether the first ignore file that decides about a path below its directory excludes it. There
is no answer if one refuses the path before. -/
def ignoredBy? (path : Path) : List (Path × Ignore.RuleSet) → Option Bool
  | [] => some false
  | (directory, rules) :: rest =>
    if path.startsWith directory then
      match rules.verdictAbove? path.spelling with
      | none => none
      | some .ignored => some true
      | some _ => ignoredBy? path rest
    else ignoredBy? path rest

def isIgnored? (selector : SourceSelector) (path : Path) : Option Bool :=
  ignoredBy? path selector.ignoreFiles

def selects? (selector : SourceSelector) (path : Path) : Option Bool :=
  let path := path.normalize
  if matchesAny selector.excluded path then some false
  else if matchesAny selector.declared path then some (!isBinary path)
  else if matchesAny selector.defaults path then
    if isLeftOut path then some false else (selector.isIgnored? path).map (!·)
  else some false

def selects (selector : SourceSelector) (path : Path) : Bool := selector.selects? path = some true

def selectsDeclared (selector : SourceSelector) (path : Path) : Bool :=
  let path := path.normalize
  !matchesAny selector.excluded path && matchesAny selector.declared path && !isBinary path

def distinctPaths (paths : List Path) : List Path :=
  paths.foldl (fun seen path => if seen.any path.same then seen else seen ++ [path]) []

def walked (tree : FileTree) (walks : List SourceWalk) : List Path :=
  walks.flatMap fun walk => Ignore.walk tree walk.respectsIgnoreFiles walk.root

def collect (tree : FileTree) (walks : List SourceWalk) (accepts : Path → Bool) : List Path :=
  Path.sort (distinctPaths ((walked tree walks).filter accepts))

def files (selector : SourceSelector) (tree : FileTree) : List Path :=
  collect tree selector.walks selector.selects

def files? (selector : SourceSelector) (tree : FileTree) : Option (List Path) :=
  if (walked tree selector.walks).all fun path => (selector.selects? path).isSome then
    some (selector.files tree)
  else none

def declaredFiles (selector : SourceSelector) (tree : FileTree) : List Path :=
  let walks := selector.walks.filter fun walk => !walk.respectsIgnoreFiles
  collect tree walks selector.selectsDeclared

end SourceSelector

end UtilityCss
