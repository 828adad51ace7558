import UtilityCss.Path.Basic

set_option autoImplicit false

namespace UtilityCss

/-- Where a path leads, seen from the root or from wherever it is read. -/
structure Location where
  absolute : Bool
  stepsUp : Nat
  names : List String
  deriving DecidableEq, Repr

namespace Location

def start : Location := ⟨false, 0, []⟩

def follow (place : Location) : Component → Location
  | .root => ⟨true, 0, []⟩
  | .here => place
  | .name text => { place with names := place.names ++ [text] }
  | .up =>
    if place.names ≠ [] then { place with names := place.names.dropLast }
    else if place.absolute then place
    else { place with stepsUp := place.stepsUp + 1 }

end Location

namespace Path

def location (p : Path) : Location := p.components.foldl Location.follow Location.start

/-- One step of normalising: a step up removes the last component, whatever it is, and stays if
there is none to remove. -/
def normalStep (done : Path) : Component → Path
  | .here => done
  | .up => done.parent?.getD (done.child "..")
  | .root => ⟨"/"⟩
  | .name text => done.child text

def normalize (p : Path) : Path := p.components.foldl normalStep ⟨""⟩

end Path

end UtilityCss
