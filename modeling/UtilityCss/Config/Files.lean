import UtilityCss.Config.Layer
import UtilityCss.FileTree

/-!
Configuration files and their presets. A file's presets are loaded depth first, in the order in
which it lists them and before the file itself, so the file takes precedence. Presets that lead back
to a file on the way to them are an error.
-/

set_option autoImplicit false

namespace UtilityCss.Config

def importError (tree : FileTree) (path : Path) (details : String) : SettingsError :=
  match tree.canonicalize path with
  | .ok place => .importFailed place details
  | .error _ => .importFailed path details

def placeOf (tree : FileTree) (path : Path) (error : FileFault → SettingsError) :
    Except SettingsError Path :=
  (tree.canonicalize path).mapError error

def Layer.ofFile (tree : FileTree) (path : Path) : Except SettingsError Layer := do
  let text ← (tree.readText path).mapError fun fault => importError tree path fault.message
  let layer ← Layer.read text path.spelling path.directory
  return { layer with origin := some path }

def presetExtension : String := "toml"

def presetPath (directory : Path) (preset : String) : Path :=
  directory.join ((Path.mk preset).withExtension presetExtension)

def placeOfPreset (tree : FileTree) (directory : Path) (preset : String) :
    Except SettingsError Path :=
  let path := presetPath directory preset
  placeOf tree path fun fault => importError tree path fault.message

def shortName (path : Path) : String := path.fileName?.getD path.spelling

def cycleError (chain : List Path) (path : Path) : SettingsError :=
  .circularImport ((chain ++ [path]).map shortName)

namespace Stack

/-- The layers of a file and of its presets, given how deep presets may still be followed and the
files on the way to it. The files on the way are distinct, so a depth of more than their number is
never exhausted. -/
def ofFileWithin (tree : FileTree) : Nat → List Path → Path → Except SettingsError Stack
  | depth, chain, path =>
    if chain.any path.same then .error (cycleError chain path)
    else
      match depth with
      | 0 => .error (cycleError chain path)
      | depth + 1 => do
        -- A file that cannot be read is reported before any fault of its presets.
        let layer ← Layer.ofFile tree path
        let presets ← layer.presets.mapM fun preset => do
          let place ← placeOfPreset tree layer.base preset
          ofFileWithin tree depth (chain ++ [path]) place
        return presets.flatten ++ [layer]

def presetDepth (tree : FileTree) : Nat := tree.fileCount + 1

def ofFile (tree : FileTree) (path : Path) : Except SettingsError Stack := do
  let place ← placeOf tree path fun fault =>
    .inaccessible path ("Failed to resolve path: " ++ fault.message)
  ofFileWithin tree (presetDepth tree) [] place

def ofFiles (tree : FileTree) (paths : List Path) : Except SettingsError Stack := do
  let loaded ← paths.mapM (ofFile tree)
  return loaded.flatten

end Stack

end UtilityCss.Config
