import Mathlib.Data.List.Count
import UtilityCss.Proofs.Candidate.Runs
import UtilityCss.Proofs.Text.Ordered
import UtilityCss.Proofs.Text.Trim

set_option autoImplicit false

namespace UtilityCss.Candidate

variable {text rest run before after : List Char} {c : Char} {token : String}

def PairsUp (opening closing : Char) (open_ : Nat) (text : List Char) : Prop :=
  open_ + text.count opening = text.count closing ∧
    ∀ start, start <+: text → start.count closing ≤ open_ + start.count opening

def IsPaired (opening closing : Char) (text : List Char) : Prop := PairsUp opening closing 0 text

section Pairs

variable {opening closing : Char} {open_ : Nat}

theorem pairsUp_nil : PairsUp opening closing open_ [] ↔ open_ = 0 := by
  simp only [PairsUp, List.count_nil, Nat.add_zero, List.prefix_nil, forall_eq, Nat.zero_le,
    and_true]

theorem pairsUp_cons : PairsUp opening closing open_ (c :: text) ↔
    open_ + (c :: text).count opening = (c :: text).count closing ∧
      ∀ start, start <+: text →
        (c :: start).count closing ≤ open_ + (c :: start).count opening := by
  simp only [PairsUp, List.prefix_cons_iff]
  refine and_congr_right fun _ => ⟨fun all start before => all _ (.inr ⟨start, rfl, before⟩), ?_⟩
  rintro all start (rfl | ⟨more, rfl, before⟩)
  · simp
  · exact all more before

theorem pairsUp_opening (different : opening ≠ closing) :
    PairsUp opening closing open_ (opening :: text) ↔ PairsUp opening closing (open_ + 1) text := by
  rw [pairsUp_cons, PairsUp]
  simp only [List.count_cons_self, List.count_cons_of_ne different]
  refine and_congr (by omega) (forall₂_congr fun start _ => by omega)

theorem pairsUp_closing (different : opening ≠ closing) :
    PairsUp opening closing open_ (closing :: text) ↔
      open_ ≠ 0 ∧ PairsUp opening closing (open_ - 1) text := by
  rw [pairsUp_cons, PairsUp]
  simp only [List.count_cons_self, List.count_cons_of_ne different.symm]
  constructor
  · rintro ⟨total, all⟩
    have first := all [] List.nil_prefix
    simp only [List.count_nil] at first
    refine ⟨by omega, by omega, fun start before => ?_⟩
    have bound := all start before
    omega
  · rintro ⟨some, total, all⟩
    refine ⟨by omega, fun start before => ?_⟩
    have bound := all start before
    omega

theorem pairsUp_other (first : c ≠ opening) (second : c ≠ closing) :
    PairsUp opening closing open_ (c :: text) ↔ PairsUp opening closing open_ text := by
  rw [pairsUp_cons, PairsUp]
  simp only [List.count_cons_of_ne first, List.count_cons_of_ne second]

end Pairs

theorem isBalanced_iff {brackets parens : Nat} : isBalanced brackets parens text = true ↔
    PairsUp '[' ']' brackets text ∧ PairsUp '(' ')' parens text := by
  induction text generalizing brackets parens with
  | nil => simp [isBalanced, pairsUp_nil]
  | cons c rest ih =>
    unfold isBalanced
    split_ifs with bracket paren bracket paren
    · subst bracket
      rw [ih, pairsUp_opening (by decide), pairsUp_other (by decide) (by decide)]
    · subst paren
      rw [ih, pairsUp_opening (by decide), pairsUp_other (by decide) (by decide)]
    · subst bracket
      rw [Bool.and_eq_true, ih, pairsUp_closing (by decide), pairsUp_other (by decide) (by decide)]
      simp [and_assoc]
    · subst paren
      rw [Bool.and_eq_true, ih, pairsUp_closing (by decide), pairsUp_other (by decide) (by decide)]
      simp [and_left_comm]
    · rw [ih, pairsUp_other ‹_› ‹_›, pairsUp_other ‹_› ‹_›]

theorem toNat_of_isClassChar (isClass : isClassChar c = true) : 33 ≤ c.toNat ∧ c.toNat ≤ 126 := by
  rcases Bool.or_eq_true_iff.1 isClass with word | isMark
  · rw [isAlphanum_iff] at word
    omega
  · have marks : classMarks.all (fun mark => 33 ≤ mark.toNat ∧ mark.toNat ≤ 126) = true := by decide
    exact of_decide_eq_true (List.all_eq_true.1 marks c (of_decide_eq_true isMark))

theorem not_blank_of_isClassChar (isClass : isClassChar c = true) : isBlank c = false := by
  have bounds := toNat_of_isClassChar isClass
  simp [isBlank, blankRanges]
  omega

theorem not_blank_run (text : List Char) : ∀ c ∈ (Candidate.run text).1, isBlank c = false := by
  fun_induction Candidate.run text with
  | case1 => simp
  | case2 => simp
  | case3 rest group after found ih =>
    have own := (group?_eq_some_iff.1 found).2.not_blank
    exact List.forall_mem_append.2 ⟨own, ih⟩
  | case4 c rest _ isClass ih =>
    exact List.forall_mem_cons.2 ⟨not_blank_of_isClassChar isClass, ih⟩
  | case5 => simp

theorem infix_of_mem_runs (member : run ∈ runs text) :
    run <:+: text ∧ ∀ c ∈ run, isBlank c = false := by
  fun_induction runs text with
  | case1 => cases member
  | case2 c rest _ _ ih =>
    exact (ih member).imp_left fun inside => inside.trans (List.suffix_cons c rest).isInfix
  | case3 c rest d ds after found ih =>
    have whole := eq_of_run (c :: rest)
    have dark := not_blank_run (c :: rest)
    rw [found] at whole dark
    rcases List.mem_cons.1 member with rfl | later
    · exact ⟨⟨[], after, whole⟩, dark⟩
    · exact (ih later).imp_left fun inside => inside.trans (List.IsSuffix.isInfix ⟨d :: ds, whole⟩)

theorem infix_trimMarks (run : List Char) : trimMarks run <:+: run := by
  have start : Text.dropWhileEnd (· ∈ [',', '.', '>']) run <+: run := by
    rw [Text.dropWhileEnd, ← List.reverse_suffix, List.reverse_reverse]
    exact List.dropWhile_suffix _
  exact (List.dropWhile_suffix _).isInfix.trans start.isInfix

theorem mem_tokens : token ∈ tokens text ↔
    ∃ run ∈ runs text, looksLikeUtility (trimMarks run) = true ∧
      token = String.ofList (trimMarks run) := by
  simp only [tokens, List.mem_map, List.mem_filter]
  constructor
  · rintro ⟨_, ⟨⟨run, member, rfl⟩, looks⟩, rfl⟩
    exact ⟨run, member, looks, rfl⟩
  · rintro ⟨run, member, looks, rfl⟩
    exact ⟨_, ⟨⟨run, member, rfl⟩, looks⟩, rfl⟩

theorem isBalanced_of_looksLikeUtility (looks : looksLikeUtility text = true) :
    isBalanced 0 0 text = true := by
  unfold looksLikeUtility at looks
  split at looks
  · exact (Bool.and_eq_true_iff.1 looks).2
  · cases looks

theorem dark_of_mem_ofText {text : String} (member : token ∈ ofText text) :
    (∀ c ∈ token.toList, isBlank c = false) ∧ token.toList.any Char.isAlpha = true := by
  obtain ⟨run, isRun, looks, rfl⟩ := mem_tokens.1 (Ordered.mem_ofList.1 member)
  rw [String.toList_ofList]
  constructor
  · exact fun c inside => (infix_of_mem_runs isRun).2 c ((infix_trimMarks run).subset inside)
  · unfold looksLikeUtility at looks
    split at looks
    · simp only [Bool.and_eq_true] at looks
      exact looks.1.2
    · cases looks

theorem not_inBrackets_blank (blank : isBlank c = true) (before after : List Char) :
    ¬ InBrackets before (c :: after) := by
  rintro ⟨opened, closed, -, begins, -, nonempty, bracketed⟩
  obtain ⟨d, more, rfl⟩ := List.exists_cons_of_ne_nil nonempty
  obtain rfl : d = c := (List.cons_prefix_cons.1 begins).1
  have dark := bracketed.not_blank d (by simp)
  simp [blank] at dark

theorem tokens_append_blank (blank : isBlank c = true) (before after : List Char) :
    tokens (before ++ c :: after) = tokens before ++ tokens after := by
  have other : c ≠ '[' := by
    rintro rfl
    exact absurd blank (by decide)
  have stops : isClassChar c = false := by
    by_contra isClass
    simp [not_blank_of_isClassChar (by simpa using isClass)] at blank
  have silent : (Candidate.run (c :: after)).1 = [] := by rw [run_of_stop other stops]
  rw [tokens, runs_append (not_inBrackets_blank blank before after) silent, runs_of_silent silent,
    List.map_append, List.filter_append, List.map_append, ← tokens, ← tokens]

/-- A blank keeps apart what stands in front of it and behind it: the tokens of the whole are those
of both parts. Each token is a piece of its text without blanks, in which the brackets pair up, and
the parentheses. -/
theorem ofText_splits_at_blank :
    (∀ (before after : String) (c : Char), isBlank c = true →
      ofText (before ++ String.singleton c ++ after) =
        Ordered.ofList (ofText before ++ ofText after)) ∧
    ∀ (text : String), ∀ token ∈ ofText text,
      token.toList <:+: text.toList ∧ (∀ d ∈ token.toList, isBlank d = false) ∧
        IsPaired '(' ')' token.toList ∧ IsPaired '[' ']' token.toList := by
  constructor
  · intro before after c blank
    have whole : (before ++ String.singleton c ++ after).toList =
        before.toList ++ c :: after.toList := by simp
    rw [ofText, whole, tokens_append_blank blank]
    refine Ordered.ofList_eq_of_mem_iff fun token => ?_
    simp [ofText]
  · intro text token member
    obtain ⟨run, isRun, looks, rfl⟩ := mem_tokens.1 (Ordered.mem_ofList.1 member)
    obtain ⟨inside, dark⟩ := infix_of_mem_runs isRun
    have piece := infix_trimMarks run
    obtain ⟨brackets, parens⟩ := isBalanced_iff.1 (isBalanced_of_looksLikeUtility looks)
    rw [String.toList_ofList]
    exact ⟨piece.trans inside, fun d held => dark d (piece.subset held), parens, brackets⟩

theorem ofText_splits_bracket_at_blank :
    isBlank '\u00a0' = true ∧
      ofText ("w-[1px" ++ String.singleton '\u00a0' ++ "h-[calc(1px+(2px))]") =
        Ordered.ofList (ofText "w-[1px" ++ ofText "h-[calc(1px+(2px))]") ∧
      ofText "w-[1px" = ["1px"] ∧
      "h-[calc(1px+(2px))]" ∈ ofText "\"h-[calc(1px+(2px))]\"" ∧
      IsPaired '(' ')' "h-[calc(1px+(2px))]".toList :=
  have found : "h-[calc(1px+(2px))]" ∈ ofText "\"h-[calc(1px+(2px))]\"" := by decide +kernel
  ⟨by decide, ofText_splits_at_blank.1 _ _ _ (by decide), by decide +kernel, found,
    (ofText_splits_at_blank.2 _ _ found).2.2.1⟩

end UtilityCss.Candidate
