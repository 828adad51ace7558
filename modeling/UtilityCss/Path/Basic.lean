import UtilityCss.Text.Cut

set_option autoImplicit false

namespace UtilityCss

/-- In the order in which they sort. A dot is a component only at the start of a relative path. -/
inductive Component where
  | root
  | here
  | up
  | name (text : String)
  deriving DecidableEq, Repr

namespace Component

def rank : Component → Nat
  | .root => 0
  | .here => 1
  | .up => 2
  | .name _ => 3

def lt (first second : Component) : Bool :=
  match first, second with
  | .name a, .name b => a < b
  | _, _ => first.rank < second.rank

def text : Component → String
  | .root => "/"
  | .here => "."
  | .up => ".."
  | .name text => text

end Component

structure Path where
  spelling : String
  deriving DecidableEq, Repr, Inhabited

namespace Path

def isAbsolute (p : Path) : Bool := p.spelling.toList.head? = some '/'

def pieceComponent (piece : List Char) : Option Component :=
  if piece = [] ∨ piece = ['.'] then none
  else if piece = ['.', '.'] then some .up
  else some (.name (String.ofList piece))

def pieces (p : Path) : Option Component × List (List Char) :=
  match Text.split '/' p.spelling.toList with
  | [] :: (piece :: rest) => (some .root, piece :: rest)
  | ['.'] :: rest => (some .here, rest)
  | pieces => (none, pieces)

def components (p : Path) : List Component :=
  let (start, pieces) := p.pieces
  start.toList ++ pieces.filterMap pieceComponent

def same (p q : Path) : Bool := p.components = q.components

def componentsLt : List Component → List Component → Bool
  | _, [] => false
  | [], _ :: _ => true
  | a :: as, b :: bs => if a = b then componentsLt as bs else a.lt b

def lt (p q : Path) : Bool := componentsLt p.components q.components

def startsWith (p q : Path) : Bool := q.components.isPrefixOf p.components

def join (p q : Path) : Path :=
  if q.isAbsolute ∨ p.spelling = "" then q
  else if p.spelling.toList.getLast? = some '/' then ⟨p.spelling ++ q.spelling⟩
  else ⟨p.spelling ++ "/" ++ q.spelling⟩

def child (p : Path) (name : String) : Path := p.join ⟨name⟩

def dropSilent (pieces : List (List Char)) : List (List Char) :=
  (pieces.reverse.dropWhile fun piece => (pieceComponent piece).isNone).reverse

def parent? (p : Path) : Option Path :=
  let (start, pieces) := p.pieces
  match (dropSilent pieces).isEmpty, start with
  | true, some .here => some ⟨""⟩
  | true, _ => none
  | false, _ =>
    let kept := Text.join ['/'] (dropSilent (dropSilent pieces).dropLast)
    match start with
    | some .root => some ⟨String.ofList ('/' :: kept)⟩
    | some .here => some ⟨String.ofList (if kept.isEmpty then ['.'] else '.' :: '/' :: kept)⟩
    | _ => some ⟨String.ofList kept⟩

def upwards : Nat → Path → List Path
  | 0, p => [p]
  | count + 1, p => p :: p.parent?.elim [] (upwards count)

def ancestors (p : Path) : List Path := upwards p.components.length p

def directory (p : Path) : Path := p.parent?.getD ⟨""⟩

def fileName? (p : Path) : Option String :=
  match p.components.getLast? with
  | some (.name text) => some text
  | _ => none

def stemAndExtension (name : String) : String × Option String :=
  match Text.splitLast '.' name.toList with
  | some (c :: stem, extension) =>
    if name = ".." then (name, none)
    else (String.ofList (c :: stem), some (String.ofList extension))
  | _ => (name, none)

def extension? (p : Path) : Option String :=
  p.fileName?.bind fun name => (stemAndExtension name).2

def withExtension (p : Path) (extension : String) : Path :=
  match p.fileName?, p.extension? with
  | some _, none =>
    let (start, pieces) := p.pieces
    let kept := Text.join ['/'] (dropSilent pieces) ++ '.' :: extension.toList
    match start with
    | some .root => ⟨String.ofList ('/' :: kept)⟩
    | some .here => ⟨String.ofList ('.' :: '/' :: kept)⟩
    | _ => ⟨String.ofList kept⟩
  | _, _ => p

def insertOrdered (p : Path) : List Path → List Path
  | [] => [p]
  | q :: rest =>
    if p.same q then q :: rest
    else if p.lt q then p :: q :: rest
    else q :: insertOrdered p rest

def sort (paths : List Path) : List Path := paths.mergeSort fun p q => !q.lt p

end Path

end UtilityCss
