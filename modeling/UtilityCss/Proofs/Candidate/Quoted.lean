import UtilityCss.Proofs.Candidate.Tokens

set_option autoImplicit false

namespace UtilityCss.Candidate

variable {text rest name before after outside value : List Char} {c q : Char}

theorem isFiller_of_isClassChar (isClass : isClassChar c = true) : IsFiller c := by
  refine ⟨not_blank_of_isClassChar isClass, ?_, ?_⟩
  · rintro rfl
    exact absurd isClass (by decide)
  · rintro rfl
    exact absurd isClass (by decide)

theorem not_inBrackets_of_not_mem (none : '[' ∉ before) (after : List Char) :
    ¬ InBrackets before after := by
  rintro ⟨opened, closed, ends, -, some, -, bracketed⟩
  obtain ⟨c, more, rfl⟩ := List.exists_cons_of_ne_nil some
  obtain ⟨behind, same⟩ := bracketed.exists_cons
  obtain rfl : c = '[' := (List.cons.inj same).1
  exact none (ends.subset List.mem_cons_self)

theorem mem_dropWhile {test : Char → Bool} (held : c ∈ text) (keeps : test c = false) :
    c ∈ text.dropWhile test := by
  rw [← List.takeWhile_append_dropWhile (p := test) (l := text), List.mem_append] at held
  refine held.resolve_left fun taken => ?_
  have passes := List.all_eq_true.1 List.all_takeWhile c taken
  simp [keeps] at passes

theorem bracket_mem_trimMarks (held : '[' ∈ text) : '[' ∈ trimMarks text := by
  refine mem_dropWhile ?_ (by decide)
  rw [Text.dropWhileEnd, List.mem_reverse]
  exact mem_dropWhile (List.mem_reverse.2 held) (by decide)

theorem exists_mem_tokens_value (none : '[' ∉ name) (outside rest : List Char) :
    ∃ others : List (List Char), ∀ value, IsBracketed value →
      ¬ InBrackets outside (value ++ rest) →
        (String.ofList name ∈ tokens (outside ++ (value ++ rest)) ↔
          ∃ run ∈ others, looksLikeUtility (trimMarks run) = true ∧ name = trimMarks run) := by
  obtain ⟨earlier, opening, inFront⟩ := exists_runs_append outside
  refine ⟨earlier ++ runs (run rest).2, fun value bracketed apart => ?_⟩
  obtain ⟨behind, opens⟩ := bracketed.exists_cons
  have first : run (value ++ rest) = (value ++ (run rest).1, (run rest).2) :=
    run_of_bracketed bracketed rest
  have spoken : (run (value ++ rest)).1 ≠ [] := by
    rw [first, opens]
    exact List.cons_ne_nil _ _
  have silent : name ≠ trimMarks (opening ++ (value ++ (run rest).1)) := by
    rintro rfl
    exact none (bracket_mem_trimMarks (by simp [opens]))
  rw [mem_tokens, inFront (value ++ rest) apart spoken, first]
  simp only [List.mem_append, List.mem_cons, String.ofList_inj]
  constructor
  · rintro ⟨run, isEarlier | rfl | isLater, looks, same⟩
    · exact ⟨run, .inl isEarlier, looks, same⟩
    · exact absurd same silent
    · exact ⟨run, .inr isLater, looks, same⟩
  · rintro ⟨run, isEarlier | isLater, looks, same⟩
    · exact ⟨run, .inl isEarlier, looks, same⟩
    · exact ⟨run, .inr (.inr isLater), looks, same⟩

theorem mem_tokens_insert (inBrackets : InBrackets before after)
    (fillers : ∀ c ∈ text, IsFiller c) (none : '[' ∉ name) :
    String.ofList name ∈ tokens (before ++ (text ++ after)) ↔
      String.ofList name ∈ tokens (before ++ after) := by
  obtain ⟨outside, opened, closed, rest, rfl, rfl, some, nonempty, bracketed, apart⟩ :=
    inBrackets.exists_outermost
  obtain ⟨others, gives⟩ := exists_mem_tokens_value none outside rest
  have longer : IsBracketed (opened ++ (text ++ closed)) :=
    (isBracketed_insert fillers some nonempty).2 bracketed
  have short := gives (opened ++ closed) bracketed (by simpa using apart)
  rw [← inBrackets_insert fillers] at apart
  have long := gives (opened ++ (text ++ closed)) longer (by simpa using apart)
  simp only [List.append_assoc] at short long ⊢
  rw [long, short]

theorem mem_tokens_quoted (stops : isClassChar q = false) (other : q ≠ '[')
    (isClass : ∀ c ∈ name, isClassChar c = true) (looks : looksLikeUtility name = true)
    (trimmed : trimMarks name = name) (apart : ¬ InBrackets before (q :: (name ++ q :: after))) :
    String.ofList name ∈ tokens (before ++ q :: (name ++ q :: after)) := by
  have silent (rest : List Char) : (run (q :: rest)).1 = [] := by rw [run_of_stop other stops]
  have none : '[' ∉ name := fun member => (isFiller_of_isClassChar (isClass _ member)).2.1 rfl
  have nonempty : name ≠ [] := by
    rintro rfl
    cases looks
  rw [mem_tokens, runs_append apart (silent _), runs_of_silent (silent _),
    runs_append (not_inBrackets_of_not_mem none _) (silent _), runs_of_class isClass nonempty]
  exact ⟨name, by simp, by rw [trimmed]; exact looks, by rw [trimmed]⟩

/-- A name between quotes is found exactly if no bracketed value goes over it, or if the text has it
without the quotes as well. -/
theorem mem_ofText_quoted_iff (before name after : String) (q : Char) (quote : q = '"' ∨ q = '\'')
    (isClass : ∀ c ∈ name.toList, isClassChar c = true)
    (looks : looksLikeUtility name.toList = true) (trimmed : trimMarks name.toList = name.toList) :
    name ∈ ofText (before ++ String.singleton q ++ name ++ String.singleton q ++ after) ↔
      ¬ InBrackets before.toList after.toList ∨ name ∈ ofText (before ++ after) := by
  have stops : isClassChar q = false := by rcases quote with rfl | rfl <;> decide
  have filler : IsFiller q := by rcases quote with rfl | rfl <;> decide
  have none : '[' ∉ name.toList := fun member =>
    (isFiller_of_isClassChar (isClass _ member)).2.1 rfl
  have fillers : ∀ c ∈ q :: (name.toList ++ [q]), IsFiller c := by
    refine List.forall_mem_cons.2 ⟨filler, List.forall_mem_append.2 ⟨fun c member => ?_, ?_⟩⟩
    · exact isFiller_of_isClassChar (isClass c member)
    · exact List.forall_mem_singleton.2 filler
  have whole : (before ++ String.singleton q ++ name ++ String.singleton q ++ after).toList =
      before.toList ++ (q :: (name.toList ++ [q]) ++ after.toList) := by simp
  have place : InBrackets before.toList ([] ++ (q :: (name.toList ++ [q]) ++ after.toList)) ↔
      InBrackets before.toList ([] ++ after.toList) := inBrackets_insert fillers
  rw [List.nil_append, List.nil_append] at place
  rw [ofText, ofText, Ordered.mem_ofList, Ordered.mem_ofList, whole, String.toList_append]
  by_cases inBrackets : InBrackets before.toList after.toList
  · have same := mem_tokens_insert inBrackets fillers none
    rw [String.ofList_toList] at same
    rw [same]
    simp [inBrackets]
  · have behind : q :: (name.toList ++ [q]) ++ after.toList =
        q :: (name.toList ++ q :: after.toList) := by simp
    have apart := place.not.2 inBrackets
    rw [behind] at apart ⊢
    have found := mem_tokens_quoted stops filler.2.1 isClass looks trimmed apart
    rw [String.ofList_toList] at found
    exact iff_of_true found (.inl inBrackets)

theorem mem_ofText_quoted_in_call :
    ("flex" ∈ ofText "clsx([ 'flex', \"p-4\" ])" ↔
      ¬ InBrackets "clsx([ ".toList ", \"p-4\" ])".toList ∨
        "flex" ∈ ofText "clsx([ , \"p-4\" ])") ∧
    "flex" ∈ ofText "clsx([ 'flex', \"p-4\" ])" ∧
    ofText "clsx(['flex',\"p-4\"])" = ["clsx(['flex',\"p-4\"])"] :=
  have found := mem_ofText_quoted_iff "clsx([ " "flex" ", \"p-4\" ])" '\'' (.inr rfl)
    (List.all_eq_true.1 (by decide)) (by decide) (by decide)
  ⟨found, found.2 (.inl (by decide)), by decide +kernel⟩

end UtilityCss.Candidate
