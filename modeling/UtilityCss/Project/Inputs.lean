import UtilityCss.Config.Files
import UtilityCss.Project.Places
import UtilityCss.Source.Selector
import UtilityCss.Stylesheet.Imports
import UtilityCss.Theme.Resolution

set_option autoImplicit false

namespace UtilityCss

structure ProjectInputs where
  stylesheet : Stylesheet
  layers : Config.Stack
  catalog : SourceCatalog
  selector : SourceSelector
  themeFiles : List Path

namespace ProjectInputs

def excludeOutput (catalog : SourceCatalog) (output : Option Path) : SourceCatalog :=
  match output.bind Path.parent?, output.bind Path.fileName? with
  | some directory, some name => catalog.exclude name directory
  | _, _ => catalog

def catalogOf (places : ProjectPlaces) (sheet : Stylesheet) (layers : Config.Stack) :
    SourceCatalog :=
  excludeOutput (((SourceCatalog.ofProject places.root).addStylesheet sheet).addLayers layers)
    places.output

def themeFilesOf (places : ProjectPlaces) (sheet : Stylesheet) (layers : Config.Stack) :
    List Path :=
  places.input :: sheet.importedFiles ++ layers.origins

def read (tree : FileTree) (places : ProjectPlaces) : Except BuildError ProjectInputs := do
  let sheet ← Stylesheet.read tree places.input
  let layers ← (Config.Stack.ofFiles tree sheet.configs).mapError .config
  let catalog := catalogOf places sheet layers
  let selector ← SourceSelector.ofCatalog tree catalog
  return {
    stylesheet := sheet
    layers := layers
    catalog := catalog
    selector := selector
    themeFiles := themeFilesOf places sheet layers }

def definesTheme (inputs : ProjectInputs) (path : Path) : Bool := inputs.themeFiles.any path.same

def theme (inputs : ProjectInputs) : Except BuildError Theme :=
  (Theme.ofTokens inputs.stylesheet.theme inputs.layers).mapError .config

end ProjectInputs

end UtilityCss
