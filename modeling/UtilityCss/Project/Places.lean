import UtilityCss.Error
import UtilityCss.FileTree
import UtilityCss.Path.Normal

set_option autoImplicit false

namespace UtilityCss

structure ProjectPaths where
  input : Path
  output : Option Path
  root : Option Path
  deriving DecidableEq, Repr

/-- Absolute paths, of which the input and the root exist. -/
structure ProjectPlaces where
  input : Path
  output : Option Path
  root : Path
  deriving DecidableEq, Repr

namespace FileTree

def workingPath (tree : FileTree) : Path := pathOf tree.workingDirectory

def absolute (tree : FileTree) (path : Path) : Path := (tree.workingPath.join path).normalize

def existing (tree : FileTree) (path : Path) : Except BuildError Path :=
  (tree.canonicalize path).mapError fun fault => .io (path.spelling ++ ": " ++ fault.message)

end FileTree

namespace ProjectPaths

def locate (paths : ProjectPaths) (tree : FileTree) : Except BuildError ProjectPlaces := do
  let root ← tree.existing ((paths.root.map tree.absolute).getD tree.workingPath)
  let input ← tree.existing (tree.absolute paths.input)
  return { input := input, output := paths.output.map tree.absolute, root := root }

end ProjectPaths

end UtilityCss
