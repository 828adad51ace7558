import UtilityCss.Project.Build
import UtilityCss.Schedule

/-!
Live sessions: the state that outlives a build, and what a change does to it. A change to a theme
file loads the inputs again, a change to a source reads that file again, and a generation follows if
the candidates grew or the theme changed. A fault is reported and leaves what the session had.

Here changes are taken one at a time, each after the one before has settled. A `DevServer` takes
them while stages run.
-/

set_option autoImplicit false

namespace UtilityCss

inductive Delivery where
  | file (path : Path)
  | print
  | none
  deriving DecidableEq, Repr

/-- The state of a live session. `theme` is the resolved theme of `inputs`, once it was needed.
`entries` are the pages that were asked for. `published` is the last artifact whose text was new. -/
structure LiveSession where
  mode : SessionMode
  places : ProjectPlaces
  generator : Generator
  delivery : Delivery
  inputs : Option ProjectInputs
  themeRevision : Nat
  theme : Option Theme
  candidates : CandidatePool
  entries : List Path
  schedule : Schedule
  artifact : Option Artifact
  published : Option Artifact
  diagnostics : List Diagnostic
  printed : List String

namespace LiveSession

def fresh (mode : SessionMode) (places : ProjectPlaces) (generator : Generator)
    (delivery : Delivery) : LiveSession where
  mode := mode
  places := places
  generator := generator
  delivery := delivery
  inputs := none
  themeRevision := 0
  theme := none
  candidates := CandidatePool.empty
  entries := []
  schedule := Schedule.idle
  artifact := none
  published := none
  diagnostics := []
  printed := []

def diagnosticLimit : Nat := 256

def note (session : LiveSession) (error : BuildError) : LiveSession :=
  -- The oldest one makes room.
  let kept :=
    if session.diagnostics.length = diagnosticLimit then session.diagnostics.drop 1
    else session.diagnostics
  { session with diagnostics := kept ++ [Diagnostic.ofFault session.mode error] }

def install (session : LiveSession) (inputs : ProjectInputs) : LiveSession :=
  { session with
    inputs := some inputs
    themeRevision := session.themeRevision + 1
    theme := none }

/-- The sources that new inputs ask to be read: none if the registered sources are as before. A dev
session leaves out the project as a whole. -/
def rescan (session : LiveSession) (tree : FileTree) (inputs : ProjectInputs) : List Path :=
  if session.inputs.any fun before => before.catalog.same inputs.catalog then []
  else
    match session.mode with
    | .dev => inputs.selector.declaredFiles tree
    | .build | .watch => inputs.selector.files tree

def readFiles (session : LiveSession) (tree : FileTree) (paths : List Path) : LiveSession × Bool :=
  let found := Candidate.ofFiles tree paths
  let session := found.failures.foldl note session
  ({ session with candidates := session.candidates.merge found.candidates },
   session.candidates.grows found.candidates)

def gather (session : LiveSession) (tree : FileTree) (work : Workload) : LiveSession × Bool :=
  if work.reloadTheme then
    match ProjectInputs.read tree session.places with
    | .ok inputs =>
      (session.install inputs).readFiles tree (work.paths ++ session.rescan tree inputs)
    | .error error => (session.note error).readFiles tree work.paths
  else session.readFiles tree work.paths

def deliver (session : LiveSession) (tree : FileTree) (css : String) : FileTree × LiveSession :=
  match session.delivery with
  | .none => (tree, session)
  | .print => (tree, { session with printed := session.printed ++ [css] })
  | .file path =>
    match tree.writeBelow path css with
    | (tree, .ok ()) => (tree, session)
    | (tree, .error fault) => (tree, session.note (.io fault.message))

def accept (session : LiveSession) (tree : FileTree) (artifact : Artifact) :
    FileTree × LiveSession :=
  let accepted := { session with artifact := some artifact }
  if session.artifact.any fun before => before.css = artifact.css then (tree, accepted)
  else
    let (tree, delivered) := accepted.deliver tree artifact.css
    (tree, { delivered with published := some artifact })

def isUpToDate (session : LiveSession) : Bool :=
  session.artifact.any fun artifact =>
    artifact.isMadeFrom session.themeRevision session.candidates.revision

def themeFor (session : LiveSession) (inputs : ProjectInputs) : Except BuildError Theme :=
  match session.theme with
  | some theme => .ok theme
  | none => inputs.themeIfNeeded

def keepTheme (session : LiveSession) (inputs : ProjectInputs) (theme : Theme) : LiveSession :=
  if inputs.stylesheet.isRoot then { session with theme := some theme } else session

def remake (session : LiveSession) (tree : FileTree) : FileTree × LiveSession :=
  match session.inputs with
  | none => (tree, session.note (.generation "theme inputs could not be loaded"))
  | some inputs =>
    if session.isUpToDate then (tree, session)
    else
      match session.themeFor inputs with
      | .error error => (tree, session.note error)
      | .ok theme =>
        let session := session.keepTheme inputs theme
        match Artifact.render session.generator inputs.stylesheet theme session.candidates
            session.themeRevision with
        | .error error => (tree, session.note error)
        | .ok artifact => session.accept tree artifact

def advance (session : LiveSession) (step : Schedule → Schedule × Instruction) :
    LiveSession × Instruction :=
  let (schedule, instruction) := step session.schedule
  ({ session with schedule := schedule }, instruction)

def cycle (session : LiveSession) (tree : FileTree) (work : Workload) :
    FileTree × LiveSession :=
  let (extracted, grew) := session.gather tree work
  match extracted.advance fun schedule => schedule.noteExtracted grew with
  | (session, .generate) =>
    let (tree, session) := session.remake tree
    (tree, (session.advance Schedule.noteGenerated).1)
  | (session, _) => (tree, session)

def handle (session : LiveSession) (tree : FileTree) (change : Change) : FileTree × LiveSession :=
  match session.advance fun schedule => schedule.noteChange change with
  | (session, .extract work) => session.cycle tree work
  | (session, _) => (tree, session)

def start (session : LiveSession) (tree : FileTree) : FileTree × LiveSession :=
  session.handle tree (.theme session.places.input)

/-- A path defines the theme if the last inputs were read from it. Before any inputs were loaded
only the input does. -/
def definesTheme (session : LiveSession) (path : Path) : Bool :=
  match session.inputs with
  | some inputs => inputs.definesTheme path
  | none => path.same session.places.input

def follows (session : LiveSession) (inputs : ProjectInputs) (path : Path) : Bool :=
  match session.mode with
  | .dev => session.entries.any path.same || inputs.selector.selectsDeclared path
  | .build | .watch => inputs.selector.selects path

def meaningOf (session : LiveSession) (tree : FileTree) (path : Path) : Option Change :=
  let path := path.normalize
  if session.places.output.any path.same || tree.isDirectory path then none
  else if session.definesTheme path then some (.theme path)
  else if session.inputs.any fun inputs => session.follows inputs path then some (.source path)
  else none

def notify (session : LiveSession) (tree : FileTree) (path : Path) : FileTree × LiveSession :=
  match session.meaningOf tree path with
  | some change => session.handle tree change
  | none => (tree, session)

def reply (session : LiveSession) : Except BuildError Artifact :=
  match session.artifact, session.diagnostics.getLast? with
  | some artifact, _ => .ok artifact
  | none, some last => .error (.generation ("no stylesheet available: " ++ last.message))
  | none, none => .error (.generation "no stylesheet available")

end LiveSession

end UtilityCss
