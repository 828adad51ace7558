import UtilityCss.Path.Normal
import UtilityCss.Source.Pattern
import UtilityCss.Stylesheet.Directive
import UtilityCss.Stylesheet.ThemeBlock
import UtilityCss.Theme.Tokens

/-!
What a stylesheet says to the engine: design tokens in theme blocks, declared sources, configuration
files and imports. What is left is its body.
-/

set_option autoImplicit false

namespace UtilityCss

/-- An import of another stylesheet than the engine's. `path` is the file it names, if it names one.
-/
structure SheetImport where
  statement : String
  path : Option Path
  inlined : Bool
  deriving DecidableEq, Repr

structure Stylesheet where
  path : Path
  isRoot : Bool
  declarations : List (String × String)
  sources : List SourcePattern
  configs : List Path
  imports : List SheetImport
  body : String
  raw : String
  deriving DecidableEq, Repr

namespace Stylesheet

def usesEngine (css : String) : Bool := hasEngineImport css.toList

/-- The tokens that the declarations leave. -/
def theme (sheet : Stylesheet) : Theme.Tokens := Theme.Tokens.ofList sheet.declarations

def base (sheet : Stylesheet) : Path := sheet.path.directory

def keptImports (sheet : Stylesheet) : List String :=
  (sheet.imports.filter fun entry => !entry.inlined).map SheetImport.statement

def importedFiles (sheet : Stylesheet) : List Path := sheet.imports.filterMap SheetImport.path

/-- A line with its directives, and what stays of it. -/
structure ReadLine where
  directives : List Directive
  kept : Option (List Char)

def readLine (line : List Char) : ReadLine :=
  let pieces := (statementsOf line).map fun piece => (directive? piece, piece)
  let directives := pieces.filterMap Prod.fst
  if directives.isEmpty then ⟨[], some line⟩
  else
    let rest := Text.trim ((pieces.filter fun piece => piece.1.isNone).flatMap Prod.snd)
    ⟨directives, if rest.isEmpty then none else some rest⟩

def importOf (base : Path) : Directive → Option SheetImport
  | .importFile target statement =>
    let path := if namesFile target then some (base.join ⟨target⟩).normalize else none
    some ⟨statement, path, false⟩
  | _ => none

def sourceOf (base : Path) : Directive → Option SourcePattern
  | .source pattern negated => some ⟨pattern, negated, base⟩
  | _ => none

def configOf (base : Path) : Directive → Option Path
  | .config file => some (base.join ⟨file⟩)
  | _ => none

def readLines (css : List Char) : List ReadLine :=
  (Text.lines (uncommented (cutBlocks css).outside)).map readLine

def bodyOf (lines : List ReadLine) : List Char :=
  Text.trim ((lines.filterMap ReadLine.kept).flatMap fun line => line ++ ['\n'])

def parse (path : Path) (css : String) : Stylesheet :=
  let blocks := (cutBlocks css.toList).blocks.map Prod.snd
  let lines := readLines css.toList
  let directives := lines.flatMap ReadLine.directives
  let base := path.directory
  { path := path
    isRoot := usesEngine css
    declarations := blocks.flatMap Block.declarations
    sources := directives.filterMap (sourceOf base)
    configs := directives.filterMap (configOf base)
    imports := directives.filterMap (importOf base)
    body := String.ofList (bodyOf lines)
    raw := css }

end Stylesheet

end UtilityCss
