import UtilityCss.Session.Live

set_option autoImplicit false

namespace UtilityCss.LiveSession

def openDev (tree : FileTree) (paths : ProjectPaths) (generator : Generator) :
    Except BuildError LiveSession := do
  let places ← paths.locate tree
  return ((fresh .dev places generator .none).start tree).2

def entryOf (session : LiveSession) (entry : Path) : Path :=
  (session.places.root.join entry).normalize

def isNewEntry (session : LiveSession) (entry : Path) : Bool :=
  !entry.same session.places.input && !session.entries.any entry.same

def request (session : LiveSession) (tree : FileTree) (entry : Path) : LiveSession :=
  let entry := session.entryOf entry
  if session.isNewEntry entry then
    ({ session with entries := session.entries ++ [entry] }.handle tree (.source entry)).2
  else session

end UtilityCss.LiveSession
