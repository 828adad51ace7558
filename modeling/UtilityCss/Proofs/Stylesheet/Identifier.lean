import Mathlib.Data.List.TakeWhile
import UtilityCss.Toml.Scalar

set_option autoImplicit false

namespace UtilityCss.Stylesheet.Identifier

open Toml (isHexDigit numeral)

def received (c : Char) : Char :=
  if c = '\x00' then '\uFFFD' else if c = '\r' ∨ c = '\x0C' then '\n' else c

def receivedText : List Char → List Char
  | '\r' :: '\n' :: rest => '\n' :: receivedText rest
  | c :: rest => received c :: receivedText rest
  | [] => []

def isStart (c : Char) : Bool := c.isAlpha || c = '_' || 128 ≤ c.toNat

def isPart (c : Char) : Bool := isStart c || c.isDigit || c = '-'

def isSpace (c : Char) : Bool := c = '\n' || c = '\t' || c = ' '

def ofCode (code : Nat) : Char :=
  if code = 0 ∨ ¬ code.isValidChar then '\uFFFD' else Char.ofNat code

def escaped? : List Char → Option (Char × List Char)
  | [] => none
  | c :: rest =>
    if c = '\n' then none
    else if isHexDigit c then
      let digits := c :: (rest.take 5).takeWhile isHexDigit
      let behind := rest.drop (digits.length - 1)
      some (ofCode (numeral 16 digits), if behind.head?.any isSpace then behind.tail else behind)
    else some (c, rest)

theorem length_of_escaped {text rest : List Char} {c : Char}
    (found : escaped? text = some (c, rest)) : rest.length < text.length := by
  cases text with
  | nil => cases found
  | cons d text =>
    have shorter (count : Nat) : (text.drop count).length < (d :: text).length := by
      rw [List.length_drop, List.length_cons]
      omega
    simp only [escaped?] at found
    split_ifs at found with feed hex space
    · obtain ⟨-, rfl⟩ := Prod.mk.inj (Option.some.inj found)
      rw [List.length_tail]
      exact Nat.lt_of_le_of_lt (Nat.sub_le _ 1) (shorter _)
    · obtain ⟨-, rfl⟩ := Prod.mk.inj (Option.some.inj found)
      exact shorter _
    · obtain ⟨-, rfl⟩ := Prod.mk.inj (Option.some.inj found)
      exact shorter 0

def value? (text : List Char) : Option (List Char) :=
  match text with
  | [] => some []
  | c :: rest =>
    if c = '\\' then
      match _found : escaped? rest with
      | none => none
      | some (d, after) => (value? after).map (d :: ·)
    else if isPart c then (value? rest).map (c :: ·)
    else none
termination_by text.length
decreasing_by
  · have := length_of_escaped _found
    simp
    omega
  · simp

def beginsEscape : List Char → Bool
  | '\\' :: c :: _ => c ≠ '\n'
  | _ => false

def begins : List Char → Bool
  | [] => false
  | c :: rest =>
    if c = '-' then rest.head?.any (fun d => isStart d || d = '-') || beginsEscape rest
    else isStart c || beginsEscape (c :: rest)

variable {c d : Char} {text : List Char}

theorem receivedText_eq_map (absent : '\r' ∉ text) : receivedText text = text.map received := by
  fun_induction receivedText text with
  | case1 rest ih => simp at absent
  | case2 c rest _ ih => rw [ih (by simp_all), List.map_cons]
  | case3 => rfl

theorem toNat_of_isDigit (digit : c.isDigit = true) : 48 ≤ c.toNat ∧ c.toNat ≤ 57 := by
  simpa [Char.isDigit, UInt32.le_iff_toNat_le] using digit

theorem isHexDigit_of_isDigit (digit : c.isDigit = true) : isHexDigit c = true := by
  simp [isHexDigit, digit]

theorem ofCode_of_isDigit (digit : c.isDigit = true) : ofCode (numeral 16 ['3', c]) = c := by
  have bounds := toNat_of_isDigit digit
  have code : numeral 16 ['3', c] = c.toNat := by
    simp [numeral, Toml.digitValue, digit]
    omega
  have valid : c.toNat.isValidChar := c.valid
  rw [code, ofCode, if_neg (by omega), Char.ofNat_toNat]

theorem value?_nil : value? [] = some [] := by
  rw [value?]

theorem value?_part (part : isPart c = true) (rest : List Char) :
    value? (c :: rest) = (value? rest).map (c :: ·) := by
  have other : c ≠ '\\' := by
    rintro rfl
    exact absurd part (by decide)
  rw [value?, if_neg other, if_pos part]

theorem value?_escape (inLine : c ≠ '\n') (plain : isHexDigit c = false) (rest : List Char) :
    value? ('\\' :: c :: rest) = (value? rest).map (c :: ·) := by
  have escaped : escaped? (c :: rest) = some (c, rest) := by simp [escaped?, inLine, plain]
  rw [value?, if_pos rfl]
  split
  · simp_all
  · simp_all

theorem value?_digit (digit : c.isDigit = true) (rest : List Char) :
    value? ('\\' :: '3' :: c :: ' ' :: rest) = (value? rest).map (c :: ·) := by
  have hex : isHexDigit c = true := isHexDigit_of_isDigit digit
  have first : isHexDigit '3' = true := by decide
  have last : isHexDigit ' ' = false := by decide
  have space : isSpace ' ' = true := by decide
  have escaped : escaped? ('3' :: c :: ' ' :: rest) = some (c, rest) := by
    simp [escaped?, first, hex, last, space, ofCode_of_isDigit digit]
  rw [value?, if_pos rfl]
  split
  · simp_all
  · simp_all

end Identifier

open Identifier

def IsIdentifier (text : String) : Prop :=
  begins (receivedText text.toList) = true ∧ (value? (receivedText text.toList)).isSome

instance (text : String) : Decidable (IsIdentifier text) := inferInstanceAs (Decidable (_ ∧ _))

def withoutEscapes? (text : String) : Option String :=
  (value? (receivedText text.toList)).map String.ofList

end UtilityCss.Stylesheet
