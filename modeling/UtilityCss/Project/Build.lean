import UtilityCss.Candidate.Files
import UtilityCss.Diagnostic
import UtilityCss.Project.Artifact

set_option autoImplicit false

namespace UtilityCss

namespace Diagnostic

def ofFault (mode : SessionMode) (error : BuildError) : Diagnostic :=
  ofError (if error.ends mode then .error else .warning) error

end Diagnostic

namespace FileTree

/-- Writes a file and makes the directories that are missing on the way to it. Those that are made
stay, also if the file cannot be written. -/
def writeBelow (tree : FileTree) (path : Path) (text : String) : FileTree × Except FileFault Unit :=
  match path.parent?.elim (tree, .ok ()) tree.createDirectories with
  | (tree, .error fault) => (tree, .error fault)
  | (tree, .ok ()) =>
    match tree.write path text.toUTF8 with
    | .error fault => (tree, .error fault)
    | .ok tree => (tree, .ok ())

end FileTree

namespace Build

structure Survey where
  inputs : ProjectInputs
  files : List Path
  candidates : CandidatePool
  failures : List BuildError

def survey (tree : FileTree) (places : ProjectPlaces) : Except BuildError Survey := do
  let inputs ← ProjectInputs.read tree places
  let files := inputs.selector.files tree
  let found := Candidate.ofFiles tree files
  return {
    inputs := inputs
    files := files
    candidates := CandidatePool.ofList found.candidates
    failures := found.failures }

structure Report where
  artifact : Artifact
  diagnostics : List Diagnostic
  files : Nat
  deriving DecidableEq, Repr

def compile (tree : FileTree) (places : ProjectPlaces) (generator : Generator) :
    Except BuildError Report := do
  let survey ← survey tree places
  let theme ← survey.inputs.themeIfNeeded
  let artifact ← Artifact.render generator survey.inputs.stylesheet theme survey.candidates 0
  return {
    artifact := artifact
    diagnostics := survey.failures.map (Diagnostic.ofFault .build)
    files := survey.files.length }

/-- The files after a build, what it printed, and its report or the error that ended it. -/
structure Outcome where
  tree : FileTree
  printed : String
  report : Except BuildError Report

def deliver (tree : FileTree) (output : Option Path) (report : Report) : Outcome :=
  match output with
  | none => ⟨tree, report.artifact.css ++ "\n", .ok report⟩
  | some path =>
    match tree.writeBelow path report.artifact.css with
    | (tree, .ok ()) => ⟨tree, "", .ok report⟩
    | (tree, .error fault) => ⟨tree, "", .error (.io fault.message)⟩

def run (tree : FileTree) (paths : ProjectPaths) (generator : Generator) : Outcome :=
  match paths.locate tree with
  | .error error => ⟨tree, "", .error error⟩
  | .ok places =>
    match compile tree places generator with
    | .error error => ⟨tree, "", .error error⟩
    | .ok report => deliver tree places.output report

def candidates (tree : FileTree) (paths : ProjectPaths) :
    Except BuildError (CandidatePool × List Path) := do
  let places ← paths.locate tree
  let survey ← survey tree places
  return (survey.candidates, survey.files)

end Build

end UtilityCss
