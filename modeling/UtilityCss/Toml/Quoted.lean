import UtilityCss.Toml.Scalar

set_option autoImplicit false

namespace UtilityCss.Toml

def isPrintable (c : Char) : Bool := c = '\t' || (0x20 ≤ c.toNat && c.toNat ≠ 0x7F)

def codePoint? (digits : List Char) : Option Char :=
  let n := numeral 16 digits
  if digits.all isHexDigit ∧ n.isValidChar then some (Char.ofNat n) else none

def escaped? : List Char → Option (Char × Nat)
  | 'b' :: _ => some ('\x08', 1)
  | 't' :: _ => some ('\t', 1)
  | 'n' :: _ => some ('\n', 1)
  | 'f' :: _ => some ('\x0C', 1)
  | 'r' :: _ => some ('\r', 1)
  | 'e' :: _ => some ('\x1B', 1)
  | '"' :: _ => some ('"', 1)
  | '\\' :: _ => some ('\\', 1)
  | 'x' :: text => coded 2 text
  | 'u' :: text => coded 4 text
  | 'U' :: text => coded 8 text
  | _ => none
where
  coded (count : Nat) (text : List Char) : Option (Char × Nat) :=
    if (text.take count).length = count then
      (codePoint? (text.take count)).map fun c => (c, count + 1)
    else none

def basicString? (text : List Char) : Option (List Char × List Char) :=
  match text with
  | [] => none
  | '"' :: rest => some ([], rest)
  | '\\' :: rest => do
    let (c, count) ← escaped? rest
    let (body, after) ← basicString? (rest.drop count)
    some (c :: body, after)
  | c :: rest =>
    if isPrintable c then (basicString? rest).map fun (body, after) => (c :: body, after) else none
termination_by text.length
decreasing_by all_goals simp; try omega

def literalString? : List Char → Option (List Char × List Char)
  | [] => none
  | '\'' :: rest => some ([], rest)
  | c :: rest =>
    if isPrintable c then (literalString? rest).map fun (body, after) => (c :: body, after)
    else none

def dropFirstBreak : List Char → List Char
  | '\n' :: rest => rest
  | '\r' :: '\n' :: rest => rest
  | text => text

def dropGap : List Char → List Char
  | ' ' :: rest => dropGap rest
  | '\t' :: rest => dropGap rest
  | '\n' :: rest => dropGap rest
  | '\r' :: '\n' :: rest => dropGap rest
  | text => text

theorem length_dropGap_le (text : List Char) : (dropGap text).length ≤ text.length := by
  fun_induction dropGap text <;> simp <;> omega

def foldedLine? (text : List Char) : Option (List Char) :=
  match text.dropWhile fun c => c = ' ' || c = '\t' with
  | '\n' :: rest => some (dropGap rest)
  | '\r' :: '\n' :: rest => some (dropGap rest)
  | _ => none

theorem length_foldedLine_le {text rest : List Char} (folded : foldedLine? text = some rest) :
    rest.length ≤ text.length := by
  have shorter :=
    (List.dropWhile_suffix (fun c : Char => c = ' ' || c = '\t') (l := text)).length_le
  unfold foldedLine? at folded
  split at folded
  all_goals
    first
    | contradiction
    | rename_i after same
      simp only [same, List.length_cons] at shorter
      have := length_dropGap_le after
      cases folded
      omega

/-- Up to two quotes directly in front of the closing ones belong to the string. -/
def basicBlock? (text : List Char) : Option (List Char × List Char) :=
  match text with
  | [] => none
  | '"' :: '"' :: '"' :: '"' :: '"' :: rest => some (['"', '"'], rest)
  | '"' :: '"' :: '"' :: '"' :: rest => some (['"'], rest)
  | '"' :: '"' :: '"' :: rest => some ([], rest)
  | '\\' :: rest =>
    match _folded : foldedLine? rest with
    | some after => basicBlock? after
    | none => do
      let (c, count) ← escaped? rest
      let (body, after) ← basicBlock? (rest.drop count)
      some (c :: body, after)
  | '\r' :: '\n' :: rest =>
    (basicBlock? rest).map fun (body, after) => ('\r' :: '\n' :: body, after)
  | c :: rest =>
    if isPrintable c || c = '\n' then
      (basicBlock? rest).map fun (body, after) => (c :: body, after)
    else none
termination_by text.length
decreasing_by
  · have := length_foldedLine_le _folded; simp; omega
  all_goals simp; try omega

def literalBlock? : List Char → Option (List Char × List Char)
  | [] => none
  | '\'' :: '\'' :: '\'' :: '\'' :: '\'' :: rest => some (['\'', '\''], rest)
  | '\'' :: '\'' :: '\'' :: '\'' :: rest => some (['\''], rest)
  | '\'' :: '\'' :: '\'' :: rest => some ([], rest)
  | '\r' :: '\n' :: rest =>
    (literalBlock? rest).map fun (body, after) => ('\r' :: '\n' :: body, after)
  | c :: rest =>
    if isPrintable c || c = '\n' then
      (literalBlock? rest).map fun (body, after) => (c :: body, after)
    else none

def quoted? : List Char → Option (List Char × List Char)
  | '"' :: '"' :: '"' :: rest => basicBlock? (dropFirstBreak rest)
  | '\'' :: '\'' :: '\'' :: rest => literalBlock? (dropFirstBreak rest)
  | '"' :: rest => basicString? rest
  | '\'' :: rest => literalString? rest
  | _ => none

end UtilityCss.Toml
