import Mathlib.Data.List.Basic
import UtilityCss.Proofs.Text.Trim
import UtilityCss.Text.Cut

set_option autoImplicit false

namespace UtilityCss.Text

def ink (text : List Char) : List Char := text.filter fun c => !isBlank c

@[simp] theorem ink_nil : ink [] = [] := rfl

@[simp] theorem ink_append (start rest : List Char) : ink (start ++ rest) = ink start ++ ink rest :=
  List.filter_append start rest

theorem ink_flatMap {α : Type} (items : List α) (text : α → List Char) :
    ink (items.flatMap text) = items.flatMap fun item => ink (text item) :=
  List.filter_flatMap

theorem ink_flatten (pieces : List (List Char)) : ink pieces.flatten = pieces.flatMap ink := by
  rw [← List.flatMap_id', ink_flatMap]

theorem ink_of_blank {blanks : List Char} (blank : AllBlank blanks) : ink blanks = [] := by
  rw [ink, List.filter_eq_nil_iff]
  intro c member
  simp [blank c member]

theorem count_ink {c : Char} (dark : isBlank c = false) (text : List Char) :
    (ink text).count c = text.count c :=
  List.count_filter (by simp [dark])

theorem ink_trim (text : List Char) : ink (trim text) = ink text := by
  obtain ⟨before, after, blank, blankAfter, joined⟩ := exists_trim text
  have whole := congrArg ink joined
  simp only [ink_append, ink_of_blank blank, ink_of_blank blankAfter, List.nil_append,
    List.append_nil] at whole
  exact whole.symm

theorem ink_join {separator : Char} (blank : isBlank separator = true) (pieces : List (List Char)) :
    ink (join [separator] pieces) = pieces.flatMap ink := by
  have silent : ink [separator] = [] := ink_of_blank (List.forall_mem_singleton.2 blank)
  fun_induction join [separator] pieces with
  | case1 => rfl
  | case2 piece => simp
  | case3 piece pieces _ ih => rw [ink_append, ink_append, silent, List.append_nil, ih]; rfl

theorem eq_of_dropEnd? {finish text start : List Char} (found : dropEnd? finish text = some start) :
    text = start ++ finish := by
  obtain ⟨reversed, cut, rfl⟩ := Option.map_eq_some_iff.1 found
  simpa using congrArg List.reverse (eq_of_isPrefixOf? cut)

theorem ink_dropEnd {finish : Char} (blank : isBlank finish = true) (piece : List Char) :
    ink ((dropEnd? [finish] piece).getD piece) = ink piece := by
  cases found : dropEnd? [finish] piece with
  | none => rfl
  | some start =>
    have silent : ink [finish] = [] := ink_of_blank (List.forall_mem_singleton.2 blank)
    simp [eq_of_dropEnd? found, silent]

theorem ink_lines (text : List Char) : (lines text).flatMap ink = ink text := by
  have whole : (split '\n' text).flatMap ink = ink text := by
    rw [← ink_join (by decide : isBlank '\n' = true), split_join]
  obtain ⟨ended, last, pieces⟩ : ∃ ended last, split '\n' text = ended ++ [last] :=
    ⟨_, _, (List.dropLast_append_getLast (split_ne_nil '\n' text)).symm⟩
  have same : (ended.map fun piece => (dropEnd? ['\r'] piece).getD piece).flatMap ink =
      ended.flatMap ink := by
    rw [List.flatMap_map]
    exact List.flatMap_congr fun piece _ => ink_dropEnd (by decide) piece
  rw [← whole]
  cases last <;> simp [lines, pieces, same]

end UtilityCss.Text
