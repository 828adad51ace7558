import UtilityCss.Config.Layer
import UtilityCss.Path.Normal
import UtilityCss.Stylesheet.Basic

set_option autoImplicit false

namespace UtilityCss

namespace Source

inductive Origin where
  | default
  | declared
  | negated
  deriving DecidableEq, Repr

def Origin.name : Origin → String
  | .default => "default"
  | .declared => "declared"
  | .negated => "negated"

structure Entry where
  pattern : String
  base : Path
  origin : Origin
  deriving DecidableEq, Repr

def globMarks : List Char := ['*', '?', '[', '\x7b']

def hasGlobMark (text : String) : Bool := text.toList.any (· ∈ globMarks)

/-- The absolute pattern of a pattern below a directory. One without marks and without an extension
names a directory and stands for all that is in it. -/
def globBelow (base : Path) (pattern : String) : String :=
  let text := (base.join ⟨pattern⟩).normalize.spelling.toList.map fun c =>
    if c = '\\' then '/' else c
  if hasGlobMark pattern || (Path.mk pattern).extension?.isSome then String.ofList text
  else String.ofList (Text.dropWhileEnd (· = '/') text ++ ['/', '*', '*', '/', '*'])

def fixedStart (glob : String) : Path :=
  let components := (Path.mk glob).components
  let plain := components.takeWhile fun component => !hasGlobMark component.text
  let root := plain.foldl (fun root component => root.child component.text) (Path.mk "")
  -- A pattern without any mark names a file, which lies in the directory above it.
  if plain.length = components.length then root.parent?.getD root else root

def Entry.glob (entry : Entry) : String := globBelow entry.base entry.pattern

def Entry.same (first second : Entry) : Bool :=
  first.pattern = second.pattern && first.base.same second.base && first.origin = second.origin

end Source

open Source

structure SourceCatalog where
  entries : List Source.Entry
  deriving DecidableEq, Repr

namespace SourceCatalog

def empty : SourceCatalog := ⟨[]⟩

def same (first second : SourceCatalog) : Bool :=
  first.entries.length = second.entries.length &&
    (first.entries.zip second.entries).all fun (entry, other) => entry.same other

def insert (catalog : SourceCatalog) (entry : Entry) : SourceCatalog :=
  if catalog.entries.any entry.same then catalog else ⟨catalog.entries ++ [entry]⟩

def ofProject (root : Path) : SourceCatalog := empty.insert ⟨"**/*", root, .default⟩

def declare (catalog : SourceCatalog) (pattern : String) (base : Path) : SourceCatalog :=
  catalog.insert ⟨pattern, base, .declared⟩

def exclude (catalog : SourceCatalog) (pattern : String) (base : Path) : SourceCatalog :=
  catalog.insert ⟨pattern, base, .negated⟩

def addPattern (catalog : SourceCatalog) (p : SourcePattern) : SourceCatalog :=
  if p.negated then catalog.exclude p.pattern p.base else catalog.declare p.pattern p.base

def addStylesheet (catalog : SourceCatalog) (sheet : Stylesheet) : SourceCatalog :=
  sheet.sources.foldl addPattern catalog

def addLayers (catalog : SourceCatalog) (stack : Config.Stack) : SourceCatalog :=
  stack.content.foldl addPattern catalog

def entriesOf (catalog : SourceCatalog) (origin : Origin) : List Entry :=
  catalog.entries.filter fun entry => entry.origin = origin

def exclusions (catalog : SourceCatalog) : List Entry := catalog.entriesOf .negated

def firstOfGlob : List String → List Entry → List Entry
  | _, [] => []
  | seen, entry :: rest =>
    if entry.glob ∈ seen then firstOfGlob seen rest
    else entry :: firstOfGlob (entry.glob :: seen) rest

def sources (catalog : SourceCatalog) : List Entry :=
  firstOfGlob (catalog.exclusions.map Entry.glob)
    (catalog.entries.filter fun entry => entry.origin ≠ .negated)

def addRoot (roots : List Path) (root : Path) : List Path :=
  if roots.any root.startsWith then roots
  else (roots.filter fun other => !other.startsWith root) ++ [root]

def roots (catalog : SourceCatalog) : List Path :=
  (catalog.sources.map fun entry => fixedStart entry.glob).foldl addRoot []

end SourceCatalog

end UtilityCss
