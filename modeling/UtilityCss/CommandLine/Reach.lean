import UtilityCss.CommandLine.Arguments
import UtilityCss.Project.Inputs

set_option autoImplicit false

namespace UtilityCss.CommandLine

def missingDirectory : BuildError → List Path
  | .config (.importFailed path _) => [path.normalize.directory]
  | .config (.inaccessible path _) => [path.normalize.directory]
  | _ => []

def inputDirectories (tree : FileTree) (places : ProjectPlaces) : List Path :=
  let imported := match Stylesheet.read tree places.input with
    | .ok sheet => sheet.importedFiles.map Path.directory
    | .error _ => []
  match ProjectInputs.read tree places with
  | .ok inputs => imported ++ inputs.selector.roots ++ inputs.themeFiles.map Path.directory
  | .error error => imported ++ missingDirectory error

def sessionDirectories (tree : FileTree) (paths : ProjectPaths) : List Path :=
  let root := (paths.root.map tree.absolute).getD tree.workingPath
  let named := [root, (tree.absolute paths.input).directory] ++
    (paths.output.map fun output => (tree.absolute output).directory).toList
  match paths.locate tree with
  | .ok places => named ++ inputDirectories tree places
  | .error _ => named

def commandDirectories (tree : FileTree) : Command → List Path
  | .build paths => sessionDirectories tree paths
  | .watch paths => sessionDirectories tree paths
  | .candidates root (some input) _ => sessionDirectories tree ⟨input, none, root⟩
  | .candidates root none _ => [(root.map tree.absolute).getD tree.workingPath]

def directories (tree : FileTree) (invocation : Invocation) : List Path :=
  (invocation.logDirectory.map tree.absolute).toList ++ commandDirectories tree invocation.command

end UtilityCss.CommandLine
