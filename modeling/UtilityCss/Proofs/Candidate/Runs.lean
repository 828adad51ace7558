import Mathlib.Tactic.SplitIfs
import UtilityCss.Proofs.Candidate.Brackets

set_option autoImplicit false

namespace UtilityCss.Candidate

variable {text rest before after opened closed : List Char} {c : Char}

theorem run_cons_of_class (isClass : isClassChar c = true) (rest : List Char) :
    run (c :: rest) = (c :: (run rest).1, (run rest).2) := by
  have other : c ≠ '[' := by
    rintro rfl
    exact absurd isClass (by decide)
  rw [run, if_neg other, if_pos isClass]

theorem run_of_stop (other : c ≠ '[') (stops : isClassChar c = false) (rest : List Char) :
    run (c :: rest) = ([], c :: rest) := by
  rw [run, if_neg other, if_neg (by simp [stops])]

theorem run_of_unclosed (unclosed : group? false rest = none) :
    run ('[' :: rest) = ([], '[' :: rest) := by
  rw [run, if_pos rfl]
  split
  · rfl
  · next found => rw [unclosed] at found; cases found

theorem run_of_bracketed (bracketed : IsBracketed text) (rest : List Char) :
    run (text ++ rest) = (text ++ (run rest).1, (run rest).2) := by
  obtain ⟨group, rfl⟩ := bracketed.exists_cons
  have found := group?_of_bracketed bracketed rest
  rw [List.cons_append, run, if_pos rfl]
  split
  · next unclosed => rw [found] at unclosed; cases unclosed
  · next inside behind again =>
    rw [found] at again
    obtain ⟨rfl, rfl⟩ := Prod.mk.inj (Option.some.inj again)
    rfl

theorem run_append (apart : ¬ InBrackets text rest) :
    run (text ++ rest) = if (run text).2 = [] then (text ++ (run rest).1, (run rest).2)
      else ((run text).1, (run text).2 ++ rest) := by
  fun_induction run text with
  | case1 => simp
  | case2 behind unclosed =>
    rw [if_neg (List.cons_ne_nil _ _), List.cons_append, run_of_unclosed]
    rw [Option.eq_none_iff_forall_ne_some]
    rintro ⟨group, left⟩ found
    obtain ⟨same, bracketed⟩ := group?_eq_some_iff.1 found
    -- A value that is closed in the text is read there, and one that is closed later goes over.
    rcases List.append_eq_append_iff.1 same with ⟨closed, rfl, rfl⟩ | ⟨more, rfl, -⟩
    · by_cases none : closed = []
      · subst none
        rw [List.append_nil, ← List.append_nil behind] at bracketed
        rw [← List.append_nil behind, group?_of_bracketed (by simpa using bracketed)] at unclosed
        cases unclosed
      · exact apart ⟨'[' :: behind, closed, List.suffix_refl _, List.prefix_append _ _,
          List.cons_ne_nil _ _, none, bracketed⟩
    · rw [group?_of_bracketed bracketed] at unclosed
      cases unclosed
  | case3 behind group later found ih =>
    obtain ⟨rfl, bracketed⟩ := group?_eq_some_iff.1 found
    have whole : '[' :: (group ++ later) ++ rest = '[' :: group ++ (later ++ rest) := by simp
    have suffix : later <:+ '[' :: (group ++ later) := ⟨'[' :: group, by simp⟩
    rw [whole, run_of_bracketed bracketed, ih fun inside => apart (inside.mono suffix)]
    split_ifs <;> simp
  | case4 c behind other isClass ih =>
    rw [List.cons_append, run_cons_of_class isClass,
      ih fun inside => apart (inside.mono (List.suffix_cons c behind))]
    split_ifs <;> simp
  | case5 c behind other stops =>
    rw [if_neg (List.cons_ne_nil _ _), List.cons_append, run_of_stop other (by simpa using stops)]

theorem runs_of_silent (silent : (run (c :: rest)).1 = []) : runs (c :: rest) = runs rest := by
  rw [runs]
  split
  · rfl
  · next found => simp [found] at silent

theorem runs_of_spoken (spoken : (run text).1 ≠ []) :
    runs text = (run text).1 :: runs (run text).2 := by
  cases text with
  | nil => exact absurd (by rw [run]) spoken
  | cons c rest =>
    rw [runs]
    split
    · next found => simp [found] at spoken
    · next found => rw [found]

theorem run_silent (silent : (run text).1 = []) : run text = ([], text) := by
  have whole := eq_of_run text
  rw [silent, List.nil_append] at whole
  exact Prod.ext silent whole

theorem run_append_of_silent (apart : ¬ InBrackets text rest) (silent : (run rest).1 = []) :
    run (text ++ rest) = ((run text).1, (run text).2 ++ rest) := by
  have whole := eq_of_run text
  rw [run_append apart, run_silent silent]
  split_ifs with ends
  · rw [ends, List.append_nil] at whole
    rw [ends, whole, List.append_nil, List.nil_append]
  · rfl

theorem runs_append (apart : ¬ InBrackets text rest) (silent : (run rest).1 = []) :
    runs (text ++ rest) = runs text ++ runs rest := by
  fun_induction runs text with
  | case1 => rfl
  | case2 c behind left found ih =>
    have later := ih fun inside => apart (inside.mono (List.suffix_cons c behind))
    have none := run_append_of_silent apart silent
    rw [found] at none
    rw [← later, List.cons_append, runs_of_silent]
    rw [← List.cons_append, none]
  | case3 c behind d ds after found ih =>
    have first := run_append_of_silent apart silent
    have whole := eq_of_run (c :: behind)
    rw [found] at first whole
    have later := ih fun inside => apart (inside.mono ⟨d :: ds, whole⟩)
    rw [runs_of_spoken (by rw [first]; exact List.cons_ne_nil d ds), first, later]
    rfl

theorem exists_runs_append (text : List Char) : ∃ earlier opening, ∀ rest, ¬ InBrackets text rest →
    (run rest).1 ≠ [] →
      runs (text ++ rest) = earlier ++ (opening ++ (run rest).1) :: runs (run rest).2 := by
  fun_induction runs text with
  | case1 => exact ⟨[], [], fun rest _ spoken => runs_of_spoken spoken⟩
  | case2 c behind left found ih =>
    obtain ⟨earlier, opening, later⟩ := ih
    refine ⟨earlier, opening, fun rest apart spoken => ?_⟩
    have alone : run (c :: behind) = ([], c :: behind) := run_silent (by rw [found])
    have none := run_append apart
    rw [alone, if_neg (List.cons_ne_nil c behind)] at none
    have inner := later rest (fun inside => apart (inside.mono (List.suffix_cons c behind))) spoken
    rw [← inner, List.cons_append, runs_of_silent]
    rw [← List.cons_append, none]
  | case3 c behind d ds after found ih =>
    have whole := eq_of_run (c :: behind)
    rw [found] at whole
    by_cases ends : after = []
    · refine ⟨[], c :: behind, fun rest apart spoken => ?_⟩
      have first := run_append apart
      rw [found, if_pos ends] at first
      rw [runs_of_spoken (by rw [first]; exact List.cons_ne_nil _ _), first, List.nil_append]
    · obtain ⟨earlier, opening, later⟩ := ih
      refine ⟨(d :: ds) :: earlier, opening, fun rest apart spoken => ?_⟩
      have first := run_append apart
      rw [found, if_neg ends] at first
      rw [runs_of_spoken (by rw [first]; exact List.cons_ne_nil d ds), first,
        later rest (fun inside => apart (inside.mono ⟨d :: ds, whole⟩)) spoken]
      rfl

theorem runs_of_class (isClass : ∀ c ∈ text, isClassChar c = true) (nonempty : text ≠ []) :
    runs text = [text] := by
  have whole : run text = (text, []) := by
    clear nonempty
    induction text with
    | nil => rw [run]
    | cons c rest ih =>
      obtain ⟨first, others⟩ := List.forall_mem_cons.1 isClass
      rw [run_cons_of_class first, ih others]
  rw [runs_of_spoken (by simpa [whole] using nonempty), whole, runs]

end UtilityCss.Candidate
