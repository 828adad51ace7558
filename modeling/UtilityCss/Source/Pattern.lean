import UtilityCss.Path.Basic

set_option autoImplicit false

namespace UtilityCss

structure SourcePattern where
  pattern : String
  negated : Bool
  base : Path
  deriving DecidableEq, Repr

end UtilityCss
