import Mathlib.Data.List.Basic
import UtilityCss.Text.Cut

set_option autoImplicit false

namespace UtilityCss.Text

variable {separator : Char} {text : List Char} {pieces : List (List Char)}

theorem split_append_cons (separator : Char) (text rest : List Char) :
    split separator (text ++ separator :: rest) = split separator text ++ split separator rest := by
  induction text with
  | nil => simp [split]
  | cons c text ih =>
    by_cases same : c = separator
    · simp [split, same, ih]
    · rcases pieces : split separator text with _ | ⟨piece, others⟩
      · exact absurd pieces (split_ne_nil separator text)
      · simp [split, same, ih, pieces]

theorem split_of_not_mem (absent : separator ∉ text) : split separator text = [text] := by
  induction text with
  | nil => rfl
  | cons c text ih =>
    rw [List.mem_cons, not_or] at absent
    simp [split, Ne.symm absent.1, ih absent.2]

-- Only separators stand between empty pieces.
theorem forall_split_nil_iff :
    (∀ piece ∈ split separator text, piece = []) ↔ ∀ c ∈ text, c = separator := by
  induction text with
  | nil => simp [split]
  | cons c text ih =>
    by_cases same : c = separator
    · simp [split, same, ih]
    · rcases pieces : split separator text with _ | ⟨piece, others⟩ <;> simp [split, same, pieces]

theorem split_intercalate (nonempty : pieces ≠ []) (absent : ∀ piece ∈ pieces, separator ∉ piece) :
    split separator ([separator].intercalate pieces) = pieces := by
  induction pieces with
  | nil => exact absurd rfl nonempty
  | cons piece rest ih =>
    obtain ⟨first, others⟩ := List.forall_mem_cons.1 absent
    cases rest with
    | nil => simpa using split_of_not_mem first
    | cons next more =>
      rw [List.intercalate_cons_cons, List.append_assoc, List.singleton_append, split_append_cons,
        split_of_not_mem first, ih (List.cons_ne_nil next more) others]
      rfl

theorem intercalate_append (separator : List Char) {others : List (List Char)}
    (first : pieces ≠ []) (second : others ≠ []) :
    separator.intercalate (pieces ++ others) =
      separator.intercalate pieces ++ separator ++ separator.intercalate others := by
  induction pieces with
  | nil => exact absurd rfl first
  | cons piece rest ih =>
    cases rest with
    | nil =>
      obtain ⟨other, more, rfl⟩ := List.exists_cons_of_ne_nil second
      simp
    | cons next more =>
      rw [List.cons_append, List.cons_append, List.intercalate_cons_cons, ← List.cons_append,
        ih (List.cons_ne_nil next more), List.intercalate_cons_cons]
      simp

theorem join_eq_intercalate (separator : List Char) (pieces : List (List Char)) :
    join separator pieces = separator.intercalate pieces := by
  induction pieces with
  | nil => rfl
  | cons piece rest ih =>
    cases rest with
    | nil => simp [join]
    | cons next more => rw [join, ih, List.intercalate_cons_cons]; simp

theorem splitOnce_append (absent : separator ∉ text) (rest : List Char) :
    splitOnce separator (text ++ separator :: rest) = some (text, rest) := by
  induction text with
  | nil => simp [splitOnce]
  | cons c text ih =>
    obtain ⟨other, below⟩ : separator ≠ c ∧ separator ∉ text := by simpa using absent
    simp [splitOnce, Ne.symm other, ih below]

theorem splitOnce_eq_none : splitOnce separator text = none ↔ separator ∉ text := by
  induction text with
  | nil => simp [splitOnce]
  | cons c text ih =>
    by_cases same : c = separator <;> simp [splitOnce, same, ih, eq_comm (a := separator)]

end UtilityCss.Text
