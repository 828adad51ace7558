import UtilityCss.CommandLine.Arguments
import UtilityCss.CommandLine.Log
import UtilityCss.Report
import UtilityCss.Session.Watch

/-!
Running a command on a tree of files: what it prints, how it exits, and the files afterwards.
Commands exit with 0, after an error with 1, if their arguments make no sense with 2, and with 101
if an ignore file refuses a path.
-/

set_option autoImplicit false

namespace UtilityCss.CommandLine

def programVersion : String := "0.1.0"

structure Outcome where
  code : Nat
  stdout : String
  stderr : String
  tree : FileTree

namespace Outcome

def success (tree : FileTree) (stdout : String) : Outcome := ⟨0, stdout, "", tree⟩

def failure (tree : FileTree) (error : BuildError) : Outcome :=
  ⟨1, "", Report.styledError "error" ++ ": " ++ error.message ++ "\n", tree⟩

def refusal (tree : FileTree) : Outcome :=
  ⟨101, "", "path is expected to be under the root\n", tree⟩

end Outcome

def usage : String :=
  "Usage: " ++ programName ++ " [--log-dir <DIR>] <COMMAND>\n\n" ++
    "Commands:\n" ++
    "  build       -i <FILE> [-o <FILE>] [-r <DIR>]\n" ++
    "  watch       -i <FILE> [-o <FILE>] [-r <DIR>]\n" ++
    "  candidates  [-i <FILE>] [-r <DIR>] [--json]\n"

def lines (texts : List String) : String := String.join (texts.map (· ++ "\n"))

def runBuild (tree : FileTree) (paths : ProjectPaths) : Outcome :=
  let outcome := Build.run tree paths Generator.manifest
  match outcome.report with
  | .error error => Outcome.failure outcome.tree error
  | .ok report =>
    ⟨0, outcome.printed, lines (report.diagnostics.map Report.styledDiagnostic), outcome.tree⟩

def runWatch (tree : FileTree) (paths : ProjectPaths) : Outcome :=
  match WatchSession.start tree paths Generator.manifest with
  | .error error => Outcome.failure tree error
  | .ok (tree, watch) => Outcome.success tree (lines watch.session.printed)

/-- How the search for candidates stops: with an error, or because an ignore file refuses a path. -/
inductive Failure where
  | failed (error : BuildError)
  | refused
  deriving DecidableEq, Repr

def directoryCandidates (tree : FileTree) (root : Path) :
    Except Failure (CandidatePool × List Path) :=
  match SourceSelector.ofCatalog tree (SourceCatalog.ofProject root) with
  | .error error => .error (.failed error)
  | .ok selector =>
    match selector.files? tree with
    | none => .error .refused
    | some files => .ok (CandidatePool.ofList (Candidate.ofFiles tree files).candidates, files)

def candidates (tree : FileTree) (root input : Option Path) :
    Except Failure (CandidatePool × List Path) :=
  match input with
  | some input => (Build.candidates tree ⟨input, none, root⟩).mapError .failed
  | none => directoryCandidates tree (root.getD tree.workingPath)

def runCandidates (tree : FileTree) (root input : Option Path) (json : Bool) : Outcome :=
  match candidates tree root input with
  | .error (.failed error) => Outcome.failure tree error
  | .error .refused => Outcome.refusal tree
  | .ok (found, files) =>
    Outcome.success tree (lines [Report.candidatesText files.length found.items json])

def runCommand (tree : FileTree) : Command → Outcome
  | .build paths => runBuild tree paths
  | .watch paths => runWatch tree paths
  | .candidates root input json => runCandidates tree root input json

def runInvocation (tree : FileTree) (day : String) (invocation : Invocation) : Outcome :=
  match invocation.logDirectory.elim (tree, .ok ()) fun directory => openLog tree directory day with
  | (tree, .error fault) => ⟨1, "", "Error: " ++ faultRecord fault ++ "\n", tree⟩
  | (tree, .ok ()) => runCommand tree invocation.command

def run (tree : FileTree) (day : String) (args : List String) : Outcome :=
  match parse args with
  | .ok invocation => runInvocation tree day invocation
  | .error .version => Outcome.success tree (lines [programName ++ " " ++ programVersion])
  | .error .help => Outcome.success tree usage
  | .error (.usage details) => ⟨2, "", lines ["error: " ++ details, "", usage], tree⟩

end UtilityCss.CommandLine
