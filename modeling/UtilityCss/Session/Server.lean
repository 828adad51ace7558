import UtilityCss.Session.Dev

set_option autoImplicit false

namespace UtilityCss

inductive RunningStage where
  | extraction (work : Workload)
  | generation
  deriving DecidableEq, Repr

structure Reply where
  page : Path
  result : Except BuildError Artifact

/-- A dev session whose stages run in the background, while requests and changes arrive. `waiting`
are the pages of the requests that have no answer yet. -/
structure DevServer where
  session : LiveSession
  running : Option RunningStage
  waiting : List Path

namespace DevServer

/-- A generation that ends where it starts, because there are no inputs or nothing is new. -/
def endAtOnce? (session : LiveSession) : Option LiveSession :=
  match session.inputs with
  | none => some (session.note (.generation "theme inputs could not be loaded"))
  | some _ => if session.isUpToDate then some session else none

def carryOut (server : DevServer) : Instruction → DevServer × List Reply
  | .extract work => ({ server with running := some (.extraction work) }, [])
  | .generate => ({ server with running := some .generation }, [])
  | .settle =>
    ({ server with waiting := [] }, server.waiting.map fun page => ⟨page, server.session.reply⟩)
  | .wait => (server, [])

def advance (server : DevServer) (step : Schedule → Schedule × Instruction) :
    DevServer × List Reply :=
  match server.session.advance step with
  | (session, .generate) =>
    match endAtOnce? session with
    | none => carryOut { server with session := session } .generate
    | some ended =>
      let (session, instruction) := ended.advance Schedule.noteGenerated
      carryOut { server with session := session } instruction
  | (session, instruction) => carryOut { server with session := session } instruction

def take (server : DevServer) (change : Change) : DevServer × List Reply :=
  server.advance fun schedule => schedule.noteChange change

def start (places : ProjectPlaces) (generator : Generator) : DevServer :=
  (take ⟨LiveSession.fresh .dev places generator .none, none, []⟩ (.theme places.input)).1

def request (server : DevServer) (entry : Path) : DevServer × List Reply :=
  let page := server.session.entryOf entry
  let waits := { server with waiting := server.waiting ++ [page] }
  if server.session.isNewEntry page then
    let session := { server.session with entries := server.session.entries ++ [page] }
    { waits with session := session }.take (.source page)
  else if server.session.schedule.isIdle then (server, [⟨page, server.session.reply⟩])
  else (waits, [])

def notify (server : DevServer) (tree : FileTree) (path : Path) : DevServer × List Reply :=
  match server.session.meaningOf tree path with
  | some change => server.take change
  | none => (server, [])

/-- The running stage ends, and the tree has the files as it read them. Of what else it reads
nothing has changed since it started: new inputs and candidates come from stages alone. -/
def finish (server : DevServer) (tree : FileTree) : DevServer × List Reply :=
  match server.running with
  | none => (server, [])
  | some (.extraction work) =>
    let (session, grew) := server.session.gather tree work
    advance ⟨session, none, server.waiting⟩ fun schedule => schedule.noteExtracted grew
  | some .generation =>
    advance ⟨(server.session.remake tree).2, none, server.waiting⟩ Schedule.noteGenerated

end DevServer

end UtilityCss
