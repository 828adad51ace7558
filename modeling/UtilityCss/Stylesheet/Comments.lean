set_option autoImplicit false

namespace UtilityCss.Stylesheet

def isQuoteMark (c : Char) : Bool := c = '"' || c = '\''

/-- What surrounds a place in a text. -/
inductive Inside where
  | code
  | comment (afterStar : Bool)
  | quoted (quote : Char) (escaped : Bool)
  deriving DecidableEq, Repr

namespace Inside

def stepQuoted (quote : Char) (escaped : Bool) (c : Char) : Inside :=
  if escaped then .quoted quote false
  else if c = '\\' then .quoted quote true
  else if c = quote then .code
  else .quoted quote false

def stepComment (afterStar : Bool) (c : Char) : Inside :=
  if afterStar && c = '/' then .code else .comment (c = '*')

end Inside

def dropComments : Inside → List Char → List Char
  | .code, '/' :: '*' :: rest => dropComments (.comment false) rest
  | .code, c :: rest => c :: dropComments (if isQuoteMark c then .quoted c false else .code) rest
  | .comment afterStar, c :: rest => dropComments (Inside.stepComment afterStar c) rest
  | .quoted quote escaped, c :: rest => c :: dropComments (Inside.stepQuoted quote escaped c) rest
  | _, [] => []

def uncommented (css : List Char) : List Char := dropComments .code css

end UtilityCss.Stylesheet
