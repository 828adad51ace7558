import UtilityCss.Manifest
import UtilityCss.Project.Inputs

set_option autoImplicit false

namespace UtilityCss

/-- A stylesheet and the revisions of the theme and the candidates that it was made from. -/
structure Artifact where
  css : String
  themeRevision : Nat
  candidatesRevision : Nat
  passthrough : Bool
  deriving DecidableEq, Repr

namespace Artifact

def isMadeFrom (artifact : Artifact) (themeRevision candidatesRevision : Nat) : Bool :=
  artifact.themeRevision = themeRevision && artifact.candidatesRevision = candidatesRevision

def importText (sheet : Stylesheet) : String :=
  String.join (sheet.keptImports.map (· ++ "\n"))

def bodyText (before body : String) : String :=
  if body = "" then ""
  else if before = "" ∨ before.toList.getLast? = some '\n' then body ++ "\n"
  else "\n" ++ body ++ "\n"

def textOf (sheet : Stylesheet) (generated : String) : String :=
  let before := importText sheet ++ generated
  before ++ bodyText before sheet.body

def render (generator : Generator) (sheet : Stylesheet) (theme : Theme) (candidates : CandidatePool)
    (themeRevision : Nat) : Except BuildError Artifact :=
  if sheet.isRoot then do
    let generated ← generator theme candidates
    return ⟨textOf sheet generated, themeRevision, candidates.revision, false⟩
  else .ok ⟨sheet.raw, themeRevision, candidates.revision, true⟩

end Artifact

def ProjectInputs.themeIfNeeded (inputs : ProjectInputs) : Except BuildError Theme :=
  if inputs.stylesheet.isRoot then inputs.theme else .ok ⟨[]⟩

end UtilityCss
