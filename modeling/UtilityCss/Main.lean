import UtilityCss.CommandLine.Reach
import UtilityCss.CommandLine.Run

set_option autoImplicit false

namespace UtilityCss.Program

open CommandLine

partial def readNode (path : String) : IO (Option Node) := do
  let place := (← IO.currentDir) / path
  try
    if ← place.isDir then
      let mut entries : Table Node := []
      for entry in ← place.readDir do
        if let some node ← readNode (path ++ "/" ++ entry.fileName) then
          entries := Table.insert entry.fileName node entries
      return some (.directory entries)
    else return some (.file (← IO.FS.readBinFile place))
  catch _ => return none

def ignoreFiles : List (List String) := [[".ignore"], [".gitignore"], [".git", "info", "exclude"]]

def addNode (tree : FileTree) (names : List String) : IO FileTree := do
  match ← readNode (FileTree.pathOf names).spelling with
  | some node => return tree.alter names fun _ => some node
  | none => return tree

def addDirectory (tree : FileTree) (path : Path) : IO FileTree := do
  let names := path.normalize.location.names
  let above := (List.range names.length).map names.take
  let tree ← (above.flatMap fun names => ignoreFiles.map (names ++ ·)).foldlM addNode tree
  addNode tree names

partial def readTree (invocation : Invocation) (tree : FileTree) (known : List Path) :
    IO FileTree := do
  match (directories tree invocation).filter fun path => !known.any path.startsWith with
  | [] => return tree
  | path :: _ => readTree invocation (← addDirectory tree path) (path :: known)

def readFiles (invocation : Invocation) : IO FileTree := do
  let names := (Path.mk (← IO.currentDir).toString).location.names
  let empty : FileTree := ⟨[], names⟩
  readTree invocation (empty.setDirectory names) []

def writeFiles (before after : FileTree) : IO Unit := do
  for names in before.changedFiles after do
    if let some content := after.contentAt? names then
      IO.FS.createDirAll (FileTree.pathOf names.dropLast).spelling
      IO.FS.writeBinFile (FileTree.pathOf names).spelling content

def today : IO String := do
  let (_, path) ← IO.FS.createTempFile
  let seconds := (← path.metadata).modified.sec
  IO.FS.removeFile path
  return dayText (seconds.toNat / 86400)

def print (text : String) : IO Unit := do
  IO.print text
  (← IO.getStdout).flush

def pollMilliseconds : UInt32 := 200

partial def watchLoop (invocation : Invocation) (tree : FileTree) (watch : WatchSession) :
    IO Unit := do
  IO.sleep pollMilliseconds
  let changed ← readFiles invocation
  let (after, next) := (tree.changedFiles changed).foldl
    (fun (tree, watch) names => watch.notify tree (FileTree.pathOf names)) (changed, watch)
  writeFiles changed after
  print (lines (next.session.printed.drop watch.session.printed.length))
  watchLoop invocation after next

def follow (invocation : Invocation) (tree : FileTree) : IO Unit := do
  match invocation.command with
  | .watch paths =>
    match WatchSession.start tree paths Generator.manifest with
    | .ok (tree, watch) => watchLoop invocation tree watch
    | .error _ => return
  | _ => return

end UtilityCss.Program

open UtilityCss in
def main (args : List String) : IO UInt32 := do
  let invocation := (CommandLine.parse args).toOption
  let before ← match invocation with
    | some invocation => Program.readFiles invocation
    | none => pure ⟨[], []⟩
  let outcome := CommandLine.run before (← Program.today) args
  Program.writeFiles before outcome.tree
  Program.print outcome.stdout
  IO.eprint outcome.stderr
  if outcome.code = 0 then
    invocation.forM fun invocation => Program.follow invocation outcome.tree
  return UInt32.ofNat outcome.code
