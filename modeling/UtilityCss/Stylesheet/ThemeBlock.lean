import UtilityCss.Stylesheet.Comments
import UtilityCss.Text.Blank
import UtilityCss.Text.Cut

set_option autoImplicit false

namespace UtilityCss.Stylesheet

/-- Where a place in a stylesheet is: inside how many braces, and inside what. A slash may be the
first half of the start of a comment. -/
structure Place where
  depth : Nat
  inside : Inside
  afterSlash : Bool
  deriving DecidableEq, Repr

namespace Place

def top : Place := ⟨0, .code, false⟩

def isOutermost (place : Place) : Bool := place.depth = 0 && place.inside = .code

def step (place : Place) (c : Char) : Place :=
  match place.inside with
  | .comment afterStar => { place with inside := Inside.stepComment afterStar c }
  | .quoted quote escaped => { place with inside := Inside.stepQuoted quote escaped c }
  | .code =>
    if place.afterSlash && c = '*' then ⟨place.depth, .comment false, false⟩
    else if isQuoteMark c then ⟨place.depth, .quoted c false, false⟩
    else if c = '{' then ⟨place.depth + 1, .code, false⟩
    else if c = '}' then ⟨place.depth - 1, .code, false⟩
    else ⟨place.depth, .code, c = '/'⟩

def walk (place : Place) (text : List Char) : Place := text.foldl step place

end Place

def themeMarker : List Char := ['@', 't', 'h', 'e', 'm', 'e']

def prepend (start : List Char) : Option (List Char × List Char) → Option (List Char × List Char)
  | some (body, after) => some (start ++ body, after)
  | none => none

/-- What stands before and after the brace that closes `depth` open ones. Braces in comments do not
count, those in strings do; `some star` is a place inside a comment. -/
def untilClosed (depth : Nat) : Option Bool → List Char → Option (List Char × List Char)
  | _, [] => none
  | none, '/' :: '*' :: rest => prepend ['/', '*'] (untilClosed depth (some false) rest)
  | some afterStar, c :: rest =>
    prepend [c] (untilClosed depth (if afterStar && c = '/' then none else some (c = '*')) rest)
  | none, c :: rest =>
    if c = '{' then prepend [c] (untilClosed (depth + 1) none rest)
    else if c = '}' then
      if depth ≤ 1 then some ([], rest) else prepend [c] (untilClosed (depth - 1) none rest)
    else prepend [c] (untilClosed depth none rest)

theorem eq_of_prepend {start body after : List Char} {found : Option (List Char × List Char)}
    (equal : prepend start found = some (body, after)) :
    ∃ inner, found = some (inner, after) ∧ body = start ++ inner := by
  cases found with
  | none => simp [prepend] at equal
  | some parts =>
    obtain ⟨inner, rest⟩ := parts
    obtain ⟨rfl, rfl⟩ : start ++ inner = body ∧ rest = after := by simpa [prepend] using equal
    exact ⟨inner, rfl, rfl⟩

theorem eq_of_untilClosed {depth : Nat} {comment : Option Bool} {text body after : List Char}
    (closed : untilClosed depth comment text = some (body, after)) :
    text = body ++ '}' :: after := by
  fun_induction untilClosed depth comment text generalizing body with
  | case1 => contradiction
  | case2 depth rest ih =>
    obtain ⟨inner, found, rfl⟩ := eq_of_prepend closed
    simp [ih found]
  | case3 depth afterStar c rest ih =>
    obtain ⟨inner, found, rfl⟩ := eq_of_prepend closed
    simp [ih found]
  | case4 depth rest _ ih =>
    obtain ⟨inner, found, rfl⟩ := eq_of_prepend closed
    simp [ih found]
  | case5 depth rest =>
    cases closed
    rfl
  | case6 depth rest _ _ _ ih =>
    obtain ⟨inner, found, rfl⟩ := eq_of_prepend closed
    simp [ih found]
  | case7 depth c rest _ _ _ ih =>
    obtain ⟨inner, found, rfl⟩ := eq_of_prepend closed
    simp [ih found]

/-- A block: what stands in front of its brace, starting with the marker, and what stands in it. -/
structure Block where
  opening : List Char
  body : List Char
  deriving DecidableEq, Repr

def Block.text (block : Block) : List Char := block.opening ++ '{' :: block.body ++ ['}']

def blockAt? (text : List Char) : Option (Block × List Char) :=
  match Text.splitOnce '{' text with
  | none => none
  | some (opening, rest) =>
    (untilClosed 1 none rest).map fun (body, after) => (⟨opening, body⟩, after)

theorem eq_of_blockAt {text after : List Char} {block : Block}
    (found : blockAt? text = some (block, after)) : text = block.text ++ after := by
  unfold blockAt? at found
  split at found
  · contradiction
  · rename_i opening rest cut
    obtain ⟨⟨body, behind⟩, closed, equal⟩ := Option.map_eq_some_iff.1 found
    obtain ⟨rfl, rfl⟩ : Block.mk opening body = block ∧ behind = after := by simpa using equal
    simp [(Text.eq_of_splitOnce cut).1, eq_of_untilClosed closed, Block.text]

structure Cutting where
  blocks : List (List Char × Block)
  rest : List Char
  deriving DecidableEq, Repr

namespace Cutting

def text (cutting : Cutting) : List Char :=
  cutting.blocks.flatMap (fun (before, block) => before ++ block.text) ++ cutting.rest

def outside (cutting : Cutting) : List Char :=
  cutting.blocks.flatMap Prod.fst ++ cutting.rest

def cons (c : Char) (cutting : Cutting) : Cutting :=
  match cutting.blocks with
  | [] => ⟨[], c :: cutting.rest⟩
  | (before, block) :: blocks => ⟨(c :: before, block) :: blocks, cutting.rest⟩

@[simp] theorem text_cons (c : Char) (cutting : Cutting) :
    (cutting.cons c).text = c :: cutting.text := by
  obtain ⟨blocks, rest⟩ := cutting
  cases blocks <;> simp [cons, text]

end Cutting

/-- Cuts a text that starts at the given place. A block that is not closed ends the search. -/
def cutFrom (place : Place) (text : List Char) : Cutting :=
  match text with
  | [] => ⟨[], []⟩
  | c :: rest =>
    if place.isOutermost && themeMarker.isPrefixOf (c :: rest) then
      match _found : blockAt? (c :: rest) with
      -- The rest of the text stays outside, together with all blocks that follow.
      | none => ⟨[], c :: rest⟩
      | some (block, after) =>
        let cutting := cutFrom (place.walk block.text) after
        ⟨([], block) :: cutting.blocks, cutting.rest⟩
    else (cutFrom (place.step c) rest).cons c
termination_by text.length
decreasing_by
  · have sizes := congrArg List.length (eq_of_blockAt _found)
    simp [Block.text] at sizes ⊢
    omega
  · simp

def cutBlocks (css : List Char) : Cutting := cutFrom Place.top css

theorem text_cutFrom (place : Place) (text : List Char) : (cutFrom place text).text = text := by
  fun_induction cutFrom place text with
  | case1 => rfl
  | case2 place c rest _ _ => simp [Cutting.text]
  | case3 place c rest _ block after found cutting ih =>
    simp only [Cutting.text, List.flatMap_cons, List.nil_append, List.append_assoc]
    rw [eq_of_blockAt found]
    congr 1
  | case4 place c rest _ ih => simp [ih]

def nesting (depth : Nat) (c : Char) : Nat :=
  if c = '{' ∨ c = '(' then depth + 1 else if c = '}' ∨ c = ')' then depth - 1 else depth

def splitDeclarations (depth : Nat) : List Char → List (List Char)
  | [] => [[]]
  | c :: rest =>
    if c = ';' ∧ depth = 0 then [] :: splitDeclarations depth rest
    else match splitDeclarations (nesting depth c) rest with
      | [] => [[c]]
      | piece :: pieces => (c :: piece) :: pieces

/-- A piece without the comments in front of it. One that does not end leaves nothing. -/
def dropLeadingComments (text : List Char) : List Char :=
  match text with
  | '/' :: '*' :: rest =>
    match _found : Text.splitAtText ['*', '/'] rest with
    | none => []
    | some (_, after) => dropLeadingComments (Text.trimStart after)
  | _ => text
termination_by text.length
decreasing_by
  have sizes := congrArg List.length (Text.eq_of_splitAtText _found)
  have := Text.length_trimStart_le after
  simp at sizes ⊢
  omega

def declaration? (piece : List Char) : Option (String × String) :=
  match Text.splitOnce ':' (dropLeadingComments (Text.trim piece)) with
  | none => none
  | some (name, value) =>
    let name := Text.trim name
    let value := Text.trim value
    if ['-', '-'].isPrefixOf name && !value.isEmpty then
      some (String.ofList name, String.ofList value)
    else none

def Block.declarations (block : Block) : List (String × String) :=
  (splitDeclarations 0 block.body).filterMap declaration?

end UtilityCss.Stylesheet
