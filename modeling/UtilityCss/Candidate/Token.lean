import UtilityCss.Text.Blank
import UtilityCss.Text.Ordered

set_option autoImplicit false

namespace UtilityCss.Candidate

def classMarks : List Char :=
  ['_', '!', '@', '-', '(', ')', '#', '%', '.', ',', ':', '/', '*', '&', '+', '~', '>']

def isClassChar (c : Char) : Bool := c.isAlphanum || c ∈ classMarks

def prependChar (c : Char) : Option (List Char × List Char) → Option (List Char × List Char)
  | some (group, rest) => some (c :: group, rest)
  | none => none

def group? (inner : Bool) : List Char → Option (List Char × List Char)
  | [] => none
  | c :: rest =>
    if isBlank c then none
    else if c = ']' then
      if inner then prependChar c (group? false rest) else some ([c], rest)
    else if c = '[' then
      if inner then none else prependChar c (group? true rest)
    else prependChar c (group? inner rest)

theorem eq_of_group {inner : Bool} {text group rest : List Char}
    (found : group? inner text = some (group, rest)) : text = group ++ rest := by
  have step {c : Char} {cs group : List Char} {next : Bool}
      (ih : ∀ group, group? next cs = some (group, rest) → cs = group ++ rest)
      (equal : prependChar c (group? next cs) = some (group, rest)) : c :: cs = group ++ rest := by
    cases inside : group? next cs with
    | none => simp [inside, prependChar] at equal
    | some parts =>
      obtain ⟨first, second⟩ := parts
      obtain ⟨rfl, rfl⟩ : c :: first = group ∧ second = rest := by
        simpa [inside, prependChar] using equal
      simp [ih first inside]
  induction text generalizing inner group with
  | nil => simp [group?] at found
  | cons c cs ih =>
    unfold group? at found
    split at found
    · contradiction
    · split at found
      · split at found
        · exact step (fun _ => ih) found
        · obtain ⟨rfl, rfl⟩ : [c] = group ∧ cs = rest := by simpa using found
          rfl
      · split at found
        · split at found
          · contradiction
          · exact step (fun _ => ih) found
        · exact step (fun _ => ih) found

/-- The longest beginning of a text that consists of class characters and bracketed values, and the
rest. -/
def run (text : List Char) : List Char × List Char :=
  match text with
  | [] => ([], [])
  | c :: rest =>
    if c = '[' then
      match _found : group? false rest with
      -- A bracket without its end belongs to no run.
      | none => ([], c :: rest)
      | some (group, after) => (c :: group ++ (run after).1, (run after).2)
    else if isClassChar c then (c :: (run rest).1, (run rest).2)
    else ([], c :: rest)
termination_by text.length
decreasing_by
  all_goals first
    | (have sizes := congrArg List.length (eq_of_group _found); simp at sizes ⊢; omega)
    | simp

theorem eq_of_run (text : List Char) : (run text).1 ++ (run text).2 = text := by
  fun_induction run text with
  | case1 => rfl
  | case2 => rfl
  | case3 rest group after found ih =>
    simp [ih, eq_of_group found]
  | case4 c rest _ _ ih => simp [ih]
  | case5 => rfl

def runs (text : List Char) : List (List Char) :=
  match text with
  | [] => []
  | c :: rest =>
    match _found : run (c :: rest) with
    | ([], _) => runs rest
    | (d :: ds, after) => (d :: ds) :: runs after
termination_by text.length
decreasing_by
  · simp
  · have sizes := congrArg List.length (eq_of_run (c :: rest))
    rw [_found] at sizes
    simp at sizes ⊢
    omega

def trimMarks (token : List Char) : List Char :=
  (Text.dropWhileEnd (· ∈ [',', '.', '>']) token).dropWhile (· = '>')

def isBalanced (brackets parens : Nat) : List Char → Bool
  | [] => brackets = 0 && parens = 0
  | c :: rest =>
    if c = '[' then isBalanced (brackets + 1) parens rest
    else if c = '(' then isBalanced brackets (parens + 1) rest
    else if c = ']' then brackets ≠ 0 && isBalanced (brackets - 1) parens rest
    else if c = ')' then parens ≠ 0 && isBalanced brackets (parens - 1) rest
    else isBalanced brackets parens rest

def hasDoubleSlash : List Char → Bool
  | '/' :: '/' :: _ => true
  | _ :: rest => hasDoubleSlash rest
  | [] => false

/-- Whether a token could name a utility: a letter somewhere, brackets in order, and no mark at an
end that no name has there. -/
def looksLikeUtility (token : List Char) : Bool :=
  match token.head?, token.getLast? with
  | some first, some last =>
    !(first ∈ ['.', '/', '#', ',', ':']) && !(last ∈ [':', '-', '/']) && !hasDoubleSlash token &&
      token.any Char.isAlpha && isBalanced 0 0 token
  | _, _ => false

def tokens (text : List Char) : List String :=
  (((runs text).map trimMarks).filter looksLikeUtility).map String.ofList

def ofText (text : String) : List String := Ordered.ofList (tokens text.toList)

end UtilityCss.Candidate
