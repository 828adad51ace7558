import UtilityCss.Error
import UtilityCss.FileTree
import UtilityCss.Stylesheet.Basic

set_option autoImplicit false

namespace UtilityCss.Stylesheet

structure Content where
  declarations : List (String × String)
  sources : List SourcePattern
  configs : List Path
  imports : List SheetImport
  bodies : List String
  deriving DecidableEq, Repr

namespace Content

def empty : Content := ⟨[], [], [], [], []⟩

def append (first second : Content) : Content where
  declarations := first.declarations ++ second.declarations
  sources := first.sources ++ second.sources
  configs := first.configs ++ second.configs
  imports := first.imports ++ second.imports
  bodies := first.bodies ++ second.bodies

def body (content : Content) : String := "\n".intercalate content.bodies

def bodiesOf (body : String) : List String := if body.isEmpty then [] else [body]

def ofImport (entry : SheetImport) : Content := { empty with imports := [entry] }

def ofSheet (sheet : Stylesheet) : Content :=
  ⟨sheet.declarations, sheet.sources, sheet.configs, [], bodiesOf sheet.body⟩

end Content

def withContent (sheet : Stylesheet) (content : Content) : Stylesheet :=
  { sheet with
    declarations := content.declarations
    sources := content.sources
    configs := content.configs
    imports := content.imports
    body := content.body }

/-- What an import contributes, given how deep imports may still be followed and the files on the
way to it. The files on the way are distinct, so a depth of their number is never exhausted. -/
def contribution (tree : FileTree) : Nat → List Path → SheetImport → Content
  | depth, chain, entry =>
    match entry.path with
    | none => Content.ofImport entry
    | some path =>
      -- A file on the way to itself adds nothing, and its import does not stay.
      if chain.any path.same then Content.ofImport { entry with inlined := true }
      else match tree.readText path, depth with
        | .error _, _ => Content.ofImport entry
        | .ok _, 0 => Content.ofImport entry
        | .ok css, depth + 1 =>
          let sheet := parse path css
          let content := (sheet.imports.map (contribution tree depth (chain ++ [path]))).foldl
            Content.append Content.empty
          let content := content.append (Content.ofSheet sheet)
          { content with
            imports := content.imports ++ [{ entry with inlined := true }]
            bodies := Content.bodiesOf content.body }

def importDepth (tree : FileTree) : Nat := 2 * tree.fileCount + 2

def flatten (tree : FileTree) (sheet : Stylesheet) : Stylesheet :=
  let content := (sheet.imports.map
    (contribution tree (importDepth tree) [sheet.path.normalize])).foldl Content.append
      Content.empty
  sheet.withContent (content.append (Content.ofSheet sheet))

def read (tree : FileTree) (path : Path) : Except BuildError Stylesheet :=
  match tree.readText path with
  | .error fault => .error (.io fault.message)
  | .ok css => .ok (flatten tree (parse path css))

end UtilityCss.Stylesheet
