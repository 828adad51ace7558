import UtilityCss.Path.Basic
import UtilityCss.Text.Utf8
import UtilityCss.Value.Table

/-!
Files and directories without links. A tree has a working directory, from which relative paths are
read. Every step of a path has to exist, also one that is undone by a step up.
-/

set_option autoImplicit false

namespace UtilityCss

inductive Node where
  | file (content : ByteArray)
  | directory (entries : List (String × Node))

structure FileTree where
  entries : List (String × Node)
  workingDirectory : List String

inductive FileFault where
  | notFound
  | fileExists
  | notDirectory
  | isDirectory
  | nameTooLong
  | zeroInName
  | notText
  deriving DecidableEq, Repr

namespace FileFault

def text : FileFault → String
  | .notFound => "No such file or directory"
  | .fileExists => "File exists"
  | .notDirectory => "Not a directory"
  | .isDirectory => "Is a directory"
  | .nameTooLong => "File name too long"
  | .zeroInName => "file name contained an unexpected NUL byte"
  | .notText => "stream did not contain valid UTF-8"

def number? : FileFault → Option Nat
  | .notFound => some 2
  | .fileExists => some 17
  | .notDirectory => some 20
  | .isDirectory => some 21
  | .nameTooLong => some 36
  | .zeroInName => none
  | .notText => none

def message (fault : FileFault) : String :=
  match fault.number? with
  | some number => fault.text ++ " (os error " ++ toString number ++ ")"
  | none => fault.text

end FileFault

namespace Node

def at? : List String → Node → Option Node
  | [], node => some node
  | name :: rest, .directory entries => (Table.get? name entries).bind (at? rest)
  | _ :: _, .file _ => none

mutual

def files : Node → List (List String × ByteArray)
  | .file content => [([], content)]
  | .directory entries => entryFiles entries

def entryFiles : List (String × Node) → List (List String × ByteArray)
  | [] => []
  | (name, node) :: rest =>
    (files node).map (fun (names, content) => (name :: names, content)) ++ entryFiles rest

end

/-- Changes the node below names, through new directories where there are none. A file on the way
stays as it is. -/
def alter (change : Option Node → Option Node) : List String → Option Node → Option Node
  | [], node => change node
  | name :: rest, node =>
    match node with
    | some (.file content) => some (.file content)
    | none =>
      match alter change rest none with
      | some child => some (.directory [(name, child)])
      | none => none
    | some (.directory entries) =>
      match alter change rest (Table.get? name entries) with
      | some child => some (.directory (Table.insert name child entries))
      | none => some (.directory (entries.filter fun entry => entry.1 ≠ name))

end Node

namespace FileTree

def root (tree : FileTree) : Node := .directory tree.entries

def nodeAt? (tree : FileTree) (names : List String) : Option Node := tree.root.at? names

def longestName : Nat := 255

def longestPath : Nat := 4095

def step (tree : FileTree) (place : List String) (piece : List Char) :
    Except FileFault (List String) :=
  match tree.nodeAt? place with
  | some (.directory entries) =>
    if piece = [] ∨ piece = ['.'] then .ok place
    else if piece = ['.', '.'] then .ok place.dropLast
    else
      let name := String.ofList piece
      if longestName < name.utf8ByteSize then .error .nameTooLong
      else if Table.contains name entries then .ok (place ++ [name])
      else .error .notFound
  | _ => .error .notDirectory

def locate (tree : FileTree) (p : Path) : Except FileFault (List String) :=
  if p.spelling.toList.contains '\x00' then .error .zeroInName
  else if p.spelling = "" then .error .notFound
  else if longestPath < p.spelling.utf8ByteSize then .error .nameTooLong
  else (Text.split '/' p.spelling.toList).foldlM tree.step
    (if p.isAbsolute then [] else tree.workingDirectory)

def pathOf (names : List String) : Path := ⟨"/" ++ "/".intercalate names⟩

def canonicalize (tree : FileTree) (p : Path) : Except FileFault Path :=
  (tree.locate p).map pathOf

def node (tree : FileTree) (p : Path) : Except FileFault Node :=
  (tree.locate p).bind fun names =>
    match tree.nodeAt? names with
    | some node => .ok node
    | none => .error .notFound

def exists? (tree : FileTree) (p : Path) : Bool := (tree.node p).isOk

def isDirectory (tree : FileTree) (p : Path) : Bool :=
  match tree.node p with
  | .ok (.directory _) => true
  | _ => false

def readBytes (tree : FileTree) (p : Path) : Except FileFault ByteArray :=
  match tree.node p with
  | .ok (.file content) => .ok content
  | .ok (.directory _) => .error .isDirectory
  | .error fault => .error fault

def readText (tree : FileTree) (p : Path) : Except FileFault String :=
  match tree.readBytes p with
  | .error fault => .error fault
  | .ok content =>
    match Utf8.decode content with
    | .ok text => .ok text
    | .error _ => .error .notText

def fileCount (tree : FileTree) : Nat := tree.root.files.length

def contentAt? (tree : FileTree) (names : List String) : Option ByteArray :=
  match tree.nodeAt? names with
  | some (.file content) => some content
  | _ => none

def changedFiles (before after : FileTree) : List (List String) :=
  let removed := before.root.files.filter fun (names, _) => (after.contentAt? names).isNone
  let written := after.root.files.filter fun (names, content) =>
    (before.contentAt? names).map ByteArray.data ≠ some content.data
  (removed ++ written).map Prod.fst

def alter (tree : FileTree) (names : List String) (change : Option Node → Option Node) : FileTree :=
  match Node.alter change names (some tree.root) with
  | some (.directory entries) => { tree with entries := entries }
  | _ => tree

def setFile (tree : FileTree) (names : List String) (content : ByteArray) : FileTree :=
  tree.alter names fun _ => some (.file content)

def setDirectory (tree : FileTree) (names : List String) : FileTree :=
  tree.alter names fun
    | none => some (.directory [])
    | node => node

def remove (tree : FileTree) (names : List String) : FileTree := tree.alter names fun _ => none

def directoryOf (p : Path) : Path := if p.directory.spelling = "" then ⟨"."⟩ else p.directory

def newPlace (tree : FileTree) (p : Path) : Except FileFault (List String) :=
  match p.fileName?, tree.locate (directoryOf p) with
  | none, _ => .error .notFound
  | _, .error fault => .error fault
  | some name, .ok names => .ok (names ++ [name])

def endsInDot (p : Path) : Bool :=
  ((Text.split '/' p.spelling.toList).reverse.dropWhile List.isEmpty).head? = some ['.']

def makeDirectory (tree : FileTree) (p : Path) : Except FileFault FileTree :=
  match tree.locate p with
  | .ok _ => .error .fileExists
  | .error .notFound =>
    if endsInDot p then .error .notFound else (tree.newPlace p).map tree.setDirectory
  | .error fault => .error fault

def ensureDirectory (tree : FileTree) (p : Path) : FileTree × Except FileFault Unit :=
  match tree.makeDirectory p with
  | .ok tree => (tree, .ok ())
  | .error fault => (tree, if tree.isDirectory p then .ok () else .error fault)

/-- Makes the first directory of a list, and before it those that follow as far as they are missing.
What was made stays if one of them cannot be made. -/
def ensureDirectories (tree : FileTree) : List Path → FileTree × Except FileFault Unit
  | [] => (tree, .error .notFound)
  | p :: above =>
    if p.spelling = "" then (tree, .ok ())
    else match tree.ensureDirectory p with
      | (tree, .error .notFound) =>
        match tree.ensureDirectories above with
        | (tree, .ok ()) => tree.ensureDirectory p
        | failed => failed
      | result => result

def createDirectories (tree : FileTree) (p : Path) : FileTree × Except FileFault Unit :=
  tree.ensureDirectories p.ancestors

def write (tree : FileTree) (p : Path) (content : ByteArray) : Except FileFault FileTree :=
  match tree.locate p with
  | .ok names =>
    match tree.nodeAt? names with
    | some (.directory _) => .error .isDirectory
    | _ => .ok (tree.setFile names content)
  | .error .notFound => (tree.newPlace p).map fun names => tree.setFile names content
  | .error fault => .error fault

end FileTree

end UtilityCss
