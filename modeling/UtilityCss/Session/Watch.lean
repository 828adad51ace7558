import UtilityCss.Session.Live

set_option autoImplicit false

namespace UtilityCss

/-- The watched directories and single files. A single file is watched until it is replaced;
`silent` are the replaced ones, which stay on the list without being watched. -/
structure WatchList where
  directories : List Path
  files : List Path
  silent : List Path
  deriving DecidableEq, Repr

namespace WatchList

def empty : WatchList := ⟨[], [], []⟩

def update (list : WatchList) (tree : FileTree) (directories files : List Path) : WatchList :=
  let single := files.filter fun file => tree.exists? file && !directories.any file.startsWith
  { directories := directories.filter tree.isDirectory
    -- A replaced file that stays on the list is not watched anew.
    files := single.filter fun file => !list.silent.any file.same
    silent := list.silent.filter fun file => single.any file.same }

def sees (list : WatchList) (path : Path) : Bool :=
  list.directories.any path.startsWith || list.files.any path.same

def afterChange (list : WatchList) (path : Path) : WatchList :=
  let replaced := list.files.filter fun file => file.same path
  { list with
    files := list.files.filter fun file => !file.same path
    silent := list.silent ++ replaced }

end WatchList

structure WatchSession where
  session : LiveSession
  list : WatchList

namespace WatchSession

def listFor (list : WatchList) (tree : FileTree) (before after : LiveSession) : WatchList :=
  match after.inputs with
  | some inputs =>
    if before.themeRevision = after.themeRevision then list
    else list.update tree inputs.selector.roots inputs.themeFiles
  | none => list

def deliveryOf (places : ProjectPlaces) : Delivery := (places.output.map Delivery.file).getD .print

def start (tree : FileTree) (paths : ProjectPaths) (generator : Generator) :
    Except BuildError (FileTree × WatchSession) := do
  let places ← paths.locate tree
  let new := LiveSession.fresh .watch places generator (deliveryOf places)
  let list := WatchList.empty.update tree [places.root] [places.input]
  let (built, session) := new.start tree
  return (built, ⟨session, listFor list tree new session⟩)

def notify (watch : WatchSession) (tree : FileTree) (path : Path) : FileTree × WatchSession :=
  if watch.list.sees path then
    let (after, session) := watch.session.notify tree path
    (after, ⟨session, listFor (watch.list.afterChange path) tree watch.session session⟩)
  else (tree, watch)

end WatchSession

end UtilityCss
