import UtilityCss.Candidate.Pool
import UtilityCss.Candidate.Token
import UtilityCss.Error
import UtilityCss.FileTree

set_option autoImplicit false

namespace UtilityCss.Candidate

def ofFile (tree : FileTree) (path : Path) : Except BuildError (List String) :=
  match tree.readBytes path with
  | .error .notFound => .ok []
  | .error fault => .error (.extraction path fault.message)
  | .ok content =>
    match Utf8.decode content with
    | .ok text => .ok (ofText text)
    | .error fault => .error (.extraction path fault.message)

structure Findings where
  candidates : List String
  failures : List BuildError
  deriving DecidableEq, Repr

def ofFiles (tree : FileTree) (paths : List Path) : Findings :=
  let results := paths.map (ofFile tree)
  { candidates := Ordered.ofList (results.flatMap fun
      | .ok candidates => candidates
      | .error _ => [])
    failures := results.filterMap fun
      | .ok _ => none
      | .error error => some error }

end UtilityCss.Candidate
