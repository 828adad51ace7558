import UtilityCss.Manifest
import UtilityCss.Proofs.Candidate.Tokens
import UtilityCss.Proofs.Stylesheet.Identifier

set_option autoImplicit false

namespace UtilityCss

open Stylesheet Stylesheet.Identifier

namespace Generator

variable {c d : Char} {text first second : List Char}

def escapeFirst (c : Char) : List Char := if c.isDigit then ['\\', '3', c, ' '] else escapeChar c

def selectorChars : List Char → List Char
  | [] => []
  | c :: rest => escapeFirst c ++ rest.flatMap escapeChar

theorem toList_classSelector (candidate : String) :
    (classSelector candidate).toList = selectorChars candidate.toList := by
  rw [classSelector, String.toList_ofList]
  cases candidate.toList <;> rfl

theorem plain_ne_backslash (plain : isPlainInClass c = true) : c ≠ '\\' := by
  rintro rfl
  exact absurd plain (by decide)

-- A character that stands alone is no backslash, so what stands first tells how it is written.
theorem escapeChar_append_inj (same : escapeChar c ++ first = escapeChar d ++ second) :
    c = d ∧ first = second := by
  unfold escapeChar at same
  split_ifs at same with plain plainToo plainToo
  · simpa using same
  · exact absurd (List.cons.inj same).1 (plain_ne_backslash plain)
  · exact absurd (List.cons.inj same).1.symm (plain_ne_backslash plainToo)
  · simpa using same

theorem escapeChar_ne_nil (c : Char) : escapeChar c ≠ [] := by
  unfold escapeChar
  split_ifs <;> simp

theorem escapeFirst_ne_nil (c : Char) : escapeFirst c ≠ [] := by
  unfold escapeFirst
  split_ifs
  · simp
  · exact escapeChar_ne_nil c

theorem flatMap_escapeChar_inj (same : first.flatMap escapeChar = second.flatMap escapeChar) :
    first = second := by
  induction first generalizing second with
  | nil =>
    cases second with
    | nil => rfl
    | cons d second => simp [escapeChar_ne_nil] at same
  | cons c first ih =>
    cases second with
    | nil => simp [escapeChar_ne_nil] at same
    | cons d second =>
      obtain ⟨rfl, others⟩ := escapeChar_append_inj same
      rw [ih others]

-- Behind a backslash a digit stands only in the code of a first digit.
theorem escapeFirst_ne_escapeChar (digit : c.isDigit = true) :
    escapeFirst c ++ first ≠ escapeChar d ++ second := by
  intro same
  rw [escapeFirst, if_pos digit, escapeChar] at same
  split_ifs at same with plain
  · exact absurd (List.cons.inj same).1.symm (plain_ne_backslash plain)
  · simp only [List.cons_append, List.nil_append, List.cons.injEq, true_and] at same
    rw [← same.1] at plain
    exact plain (by decide)

theorem escapeFirst_append_inj (same : escapeFirst c ++ first = escapeFirst d ++ second) :
    c = d ∧ first = second := by
  by_cases digit : c.isDigit = true <;> by_cases digitToo : d.isDigit = true
  · simpa [escapeFirst, digit, digitToo] using same
  · have plain : escapeFirst d = escapeChar d := by simp [escapeFirst, digitToo]
    exact absurd (plain ▸ same) (escapeFirst_ne_escapeChar digit)
  · have plain : escapeFirst c = escapeChar c := by simp [escapeFirst, digit]
    exact absurd (plain ▸ same).symm (escapeFirst_ne_escapeChar digitToo)
  · apply escapeChar_append_inj
    simpa [escapeFirst, digit, digitToo] using same

theorem selectorChars_inj (same : selectorChars first = selectorChars second) : first = second := by
  cases first with
  | nil =>
    cases second with
    | nil => rfl
    | cons d second => simp [selectorChars, escapeFirst_ne_nil] at same
  | cons c first =>
    cases second with
    | nil => simp [selectorChars, escapeFirst_ne_nil] at same
    | cons d second =>
      obtain ⟨rfl, others⟩ := escapeFirst_append_inj same
      rw [flatMap_escapeChar_inj others]

theorem classSelector_injective : Function.Injective classSelector := by
  intro candidate other same
  apply String.toList_injective
  apply selectorChars_inj
  rw [← toList_classSelector, same, toList_classSelector]

theorem isPart_of_plain (plain : isPlainInClass c = true) : isPart c = true := by
  simp only [isPlainInClass, isPart, isStart, Char.isAlphanum, Bool.or_eq_true] at plain ⊢
  tauto

theorem plain_of_isHexDigit (hex : Toml.isHexDigit c = true) : isPlainInClass c = true := by
  have word : c.isAlphanum = true := by
    rw [isAlphanum_iff]
    simp only [Toml.isHexDigit, Char.isDigit, Bool.or_eq_true, Bool.and_eq_true, decide_eq_true_eq,
      ge_iff_le, UInt32.le_iff_toNat_le, Char.le_def] at hex
    change (48 ≤ c.toNat ∧ c.toNat ≤ 57 ∨ 97 ≤ c.toNat ∧ c.toNat ≤ 102) ∨
      65 ≤ c.toNat ∧ c.toNat ≤ 70 at hex
    omega
  simp [isPlainInClass, word]

theorem plain_of_isDigit (digit : c.isDigit = true) : isPlainInClass c = true :=
  plain_of_isHexDigit (isHexDigit_of_isDigit digit)

theorem received_of_dark (dark : isBlank c = false) :
    received c = if c = '\x00' then '\uFFFD' else c := by
  have back : c ≠ '\r' := by rintro rfl; exact absurd dark (by decide)
  have feed : c ≠ '\x0C' := by rintro rfl; exact absurd dark (by decide)
  simp [received, back, feed]

theorem received_of_plain (plain : isPlainInClass c = true) : received c = c := by
  have zero : c ≠ '\x00' := by rintro rfl; exact absurd plain (by decide)
  have back : c ≠ '\r' := by rintro rfl; exact absurd plain (by decide)
  have feed : c ≠ '\x0C' := by rintro rfl; exact absurd plain (by decide)
  simp [received, zero, back, feed]

theorem map_received_plain (plain : isPlainInClass c = true) :
    (escapeChar c).map received = [c] := by
  rw [escapeChar, if_pos plain, List.map_singleton, received_of_plain plain]

-- Behind a backslash nothing stands that would begin a code or end the line.
theorem map_received_special (special : ¬ isPlainInClass c = true) (dark : isBlank c = false) :
    (escapeChar c).map received = ['\\', received c] ∧ received c ≠ '\n' ∧
      Toml.isHexDigit (received c) = false := by
  have mark : received '\\' = '\\' := by decide
  refine ⟨by simp [escapeChar, special, mark], ?_, ?_⟩ <;> rw [received_of_dark dark] <;> split_ifs
  · decide
  · rintro rfl
    exact absurd dark (by decide)
  · decide
  · exact Bool.eq_false_iff.2 fun hex => special (plain_of_isHexDigit hex)

theorem map_received_digit (digit : c.isDigit = true) :
    (escapeFirst c).map received = ['\\', '3', c, ' '] := by
  have kept := received_of_plain (plain_of_isDigit digit)
  have others : ['\\', '3', ' '].map received = ['\\', '3', ' '] := by decide
  simp_all [escapeFirst]

theorem value?_escapeChar (dark : isBlank c = false) (rest : List Char) :
    value? ((escapeChar c).map received ++ rest) = (value? rest).map (received c :: ·) := by
  by_cases plain : isPlainInClass c = true
  · rw [map_received_plain plain, received_of_plain plain]
    exact value?_part (isPart_of_plain plain) rest
  · obtain ⟨escaped, inLine, noCode⟩ := map_received_special plain dark
    rw [escaped]
    exact value?_escape inLine noCode rest

theorem value?_escapeFirst (dark : isBlank c = false) (rest : List Char) :
    value? ((escapeFirst c).map received ++ rest) = (value? rest).map (received c :: ·) := by
  by_cases digit : c.isDigit = true
  · rw [map_received_digit digit, received_of_plain (plain_of_isDigit digit)]
    exact value?_digit digit rest
  · rw [escapeFirst, if_neg digit]
    exact value?_escapeChar dark rest

theorem value?_selectorChars (dark : ∀ c ∈ text, isBlank c = false) :
    value? ((selectorChars text).map received) = some (text.map received) := by
  have behind (rest : List Char) (dark : ∀ c ∈ rest, isBlank c = false) :
      value? ((rest.flatMap escapeChar).map received) = some (rest.map received) := by
    induction rest with
    | nil => exact value?_nil
    | cons c rest ih =>
      obtain ⟨first, others⟩ := List.forall_mem_cons.1 dark
      rw [List.flatMap_cons, List.map_append, value?_escapeChar first, ih others]
      rfl
  cases text with
  | nil => exact value?_nil
  | cons c rest =>
    obtain ⟨first, others⟩ := List.forall_mem_cons.1 dark
    rw [selectorChars, List.map_append, value?_escapeFirst first, behind rest others]
    rfl

def startsNegative : List Char → Bool
  | '-' :: c :: _ => c.isDigit
  | _ => false

theorem startsNegative_of_ne (other : c ≠ '-') (rest : List Char) :
    startsNegative (c :: rest) = false := by
  unfold startsNegative
  split <;> simp_all

theorem isStart_of_plain (plain : isPlainInClass c = true) :
    (isStart c || decide (c = '-')) = !c.isDigit := by
  have part := isPart_of_plain plain
  by_cases digit : c.isDigit = true
  · have bounds := toNat_of_isDigit digit
    have dash : c ≠ '-' := by rintro rfl; exact absurd digit (by decide)
    have low : c ≠ '_' := by rintro rfl; exact absurd digit (by decide)
    have letter : c.isAlpha = false := by
      have spelled : c.isAlpha = (decide (65 ≤ c.toNat ∧ c.toNat ≤ 90) ||
        (decide (97 ≤ c.toNat) && decide (c.toNat ≤ 122))) := rfl
      simp [spelled]
      omega
    simp [isStart, digit, dash, low, letter]
    omega
  · simpa [isPart, digit] using part

theorem beginsEscape_of_special (special : ¬ isPlainInClass c = true) (dark : isBlank c = false)
    (rest : List Char) : beginsEscape ((escapeChar c).map received ++ rest) = true := by
  obtain ⟨escaped, inLine, -⟩ := map_received_special special dark
  simp [escaped, beginsEscape, inLine]

theorem begins_escapeFirst (dark : isBlank c = false) (other : c ≠ '-') (rest : List Char) :
    begins ((escapeFirst c).map received ++ rest) = true := by
  by_cases digit : c.isDigit = true
  · rw [map_received_digit digit]
    rfl
  · rw [escapeFirst, if_neg digit]
    by_cases plain : isPlainInClass c = true
    · have start : isStart c = true := by simpa [other, digit] using isStart_of_plain plain
      simp [map_received_plain plain, begins, other, start]
    · have escape := beginsEscape_of_special plain dark rest
      obtain ⟨escaped, -, -⟩ := map_received_special plain dark
      rw [escaped] at escape ⊢
      simpa [begins] using .inr escape

theorem begins_behind_dash (dark : isBlank c = false) (rest : List Char) :
    begins ('-' :: ((escapeChar c).map received ++ rest)) = !c.isDigit := by
  by_cases plain : isPlainInClass c = true
  · have noEscape : beginsEscape (c :: rest) = false := by
      unfold beginsEscape
      split
      · simp_all [plain_ne_backslash plain]
      · rfl
    rw [map_received_plain plain, ← isStart_of_plain plain]
    simp [begins, noEscape]
  · have escape := beginsEscape_of_special plain dark rest
    have digit : c.isDigit = false := Bool.eq_false_iff.2 fun digit => plain (plain_of_isDigit digit)
    simp [begins, escape, digit]

theorem begins_selectorChars (dark : ∀ c ∈ text, isBlank c = false)
    (spoken : text.any Char.isAlpha = true) :
    begins ((selectorChars text).map received) = !startsNegative text := by
  cases text with
  | nil => cases spoken
  | cons c rest =>
    obtain ⟨first, others⟩ := List.forall_mem_cons.1 dark
    rw [selectorChars, List.map_append]
    by_cases dash : c = '-'
    · subst dash
      cases rest with
      | nil => cases spoken
      | cons d more =>
        rw [List.flatMap_cons, List.map_append]
        exact begins_behind_dash (others d List.mem_cons_self) _
    · rw [begins_escapeFirst first dash, startsNegative_of_ne dash]
      rfl

theorem mem_selectorChars (member : d ∈ selectorChars text) : d ∈ text ∨ d ∈ ['\\', '3', ' '] := by
  have own : ∀ c, ∀ d ∈ escapeChar c, d = c ∨ d ∈ ['\\', '3', ' '] := by
    intro c
    unfold escapeChar
    split_ifs <;> simp +contextual
  have front : ∀ c, ∀ d ∈ escapeFirst c, d = c ∨ d ∈ ['\\', '3', ' '] := by
    intro c
    unfold escapeFirst
    split_ifs
    · simp +contextual
    · exact own c
  cases text with
  | nil => cases member
  | cons c rest =>
    rcases List.mem_append.1 member with inFront | behind
    · rcases front c d inFront with rfl | mark
      · exact .inl List.mem_cons_self
      · exact .inr mark
    · obtain ⟨other, isBehind, inside⟩ := List.mem_flatMap.1 behind
      rcases own other d inside with rfl | mark
      · exact .inl (List.mem_cons_of_mem c isBehind)
      · exact .inr mark

theorem receivedText_selectorChars (dark : ∀ c ∈ text, isBlank c = false) :
    receivedText (selectorChars text) = (selectorChars text).map received := by
  apply receivedText_eq_map
  intro member
  rcases mem_selectorChars member with inside | other
  · exact absurd (dark _ inside) (by decide)
  · exact absurd other (by decide)

theorem map_received_eq_self_iff (dark : ∀ c ∈ text, isBlank c = false) :
    text.map received = text ↔ '\x00' ∉ text := by
  have each : ∀ c ∈ text, received c = c ↔ c ≠ '\x00' := by
    intro c member
    rw [received_of_dark (dark c member)]
    split_ifs with zero
    · simp [zero]
    · simp [zero]
  have kept : text.map received = text ↔ ∀ c ∈ text, received c = c := by
    rw [← List.map_inj_left, List.map_id']
  rw [kept]
  constructor
  · exact fun kept zero => (each _ zero).1 (kept _ zero) rfl
  · intro absent c member
    exact (each c member).2 fun zero => absent (zero ▸ member)

end Generator

open Generator

variable {text token : String}

/-- The selector of a token is an identifier, unless the token begins with a dash and a digit, and
it says the token, unless a zero is in it. -/
theorem selector_isIdentifier_iff (member : token ∈ Candidate.ofText text) :
    (IsIdentifier (classSelector token) ↔ startsNegative token.toList = false) ∧
      (withoutEscapes? (classSelector token) = some token ↔ '\x00' ∉ token.toList) := by
  obtain ⟨dark, spoken⟩ := Candidate.dark_of_mem_ofText member
  have value := value?_selectorChars dark
  have start := begins_selectorChars dark spoken
  rw [← receivedText_selectorChars dark, ← toList_classSelector] at value start
  constructor
  · simp [IsIdentifier, value, start]
  · rw [withoutEscapes?, value, Option.map_some, Option.some.injEq, ← String.toList_inj,
      String.toList_ofList]
    exact map_received_eq_self_iff dark

theorem selector_isIdentifier_of_spacing :
    "2xl:p-[2px]" ∈ Candidate.ofText "2xl:p-[2px] -2xl" ∧
      IsIdentifier (classSelector "2xl:p-[2px]") ∧
      withoutEscapes? (classSelector "2xl:p-[2px]") = some "2xl:p-[2px]" ∧
      "-2xl" ∈ Candidate.ofText "2xl:p-[2px] -2xl" ∧ ¬ IsIdentifier (classSelector "-2xl") := by
  have found : "2xl:p-[2px]" ∈ Candidate.ofText "2xl:p-[2px] -2xl" := by decide +kernel
  have negative : "-2xl" ∈ Candidate.ofText "2xl:p-[2px] -2xl" := by decide +kernel
  obtain ⟨identifier, value⟩ := selector_isIdentifier_iff found
  obtain ⟨noIdentifier, -⟩ := selector_isIdentifier_iff negative
  refine ⟨found, identifier.2 rfl, value.2 (by decide), negative, fun isIdentifier => ?_⟩
  exact absurd (noIdentifier.1 isIdentifier) (by decide)

end UtilityCss
