import UtilityCss.Proofs.Stylesheet.Declarations

set_option autoImplicit false

namespace UtilityCss.Stylesheet

namespace Inside

def mark : Inside → Option Bool
  | .comment afterStar => some afterStar
  | _ => none

def kept : Inside → Inside
  | .comment _ => .code
  | inside => inside

def next : Inside → Char → Inside
  | .code, c => if isQuoteMark c then .quoted c false else .code
  | .comment afterStar, c => stepComment afterStar c
  | .quoted quote escaped, c => stepQuoted quote escaped c

def after : Inside → List Char → Inside
  | .code, '/' :: '*' :: rest => after (.comment false) rest
  | inside, c :: rest => after (inside.next c) rest
  | inside, [] => inside

theorem after_cons {inside : Inside} {c : Char} {rest : List Char}
    (plain : inside = .code → ¬ commentMark <+: c :: rest) :
    inside.after (c :: rest) = (inside.next c).after rest := by
  rw [after.eq_2]
  rintro rest' code rfl rfl
  exact plain code (by simp [commentMark])

theorem after_append {inside : Inside} {text rest : List Char} (other : rest.head? ≠ some '*') :
    inside.after (text ++ rest) = (inside.after text).after rest := by
  fun_induction after inside text with
  | case1 text ih => simpa [after] using ih
  | case2 inside c text plain ih =>
    have code : inside = .code → ¬ commentMark <+: c :: (text ++ rest) := fun inside_eq =>
      no_comment_append (no_comment_of_plain fun rest' => plain rest' inside_eq) other
    rw [List.cons_append, after_cons code, ih]
  | case3 inside => rfl

theorem after_singleton (inside : Inside) (c : Char) : inside.after [c] = inside.next c := by
  rw [after_cons (by simp [comment_starts_iff])]
  cases inside.next c <;> rfl

theorem kept_of_mark {inside : Inside} (outside : inside.mark = none) : inside.kept = inside := by
  cases inside <;> simp_all [mark, kept]

theorem mark_next {inside : Inside} (outside : inside.mark = none) (c : Char) :
    (inside.next c).mark = none := by
  cases inside with
  | code => simp only [next]; split <;> rfl
  | comment afterStar => simp [mark] at outside
  | quoted quote escaped => simp only [next, stepQuoted]; (repeat' split) <;> rfl

theorem mark_stepComment (afterStar : Bool) (c : Char) :
    (stepComment afterStar c).mark =
      if afterStar && c = '/' then none else some (decide (c = '*')) := by
  unfold stepComment
  split <;> rfl

end Inside

theorem dropComments_cons {inside : Inside} {c : Char} {rest : List Char}
    (outside : inside.mark = none) (plain : inside = .code → ¬ commentMark <+: c :: rest) :
    dropComments inside (c :: rest) = c :: dropComments (inside.next c) rest := by
  cases inside with
  | code =>
    rw [dropComments.eq_2]
    · rfl
    · rintro rest' rfl rfl
      exact plain rfl (by simp [commentMark])
  | comment afterStar => simp [Inside.mark] at outside
  | quoted quote escaped => rfl

theorem dropComments_sublist (inside : Inside) (text : List Char) :
    (dropComments inside text).Sublist text := by
  fun_induction dropComments inside text with
  | case1 rest ih => exact (ih.cons _).cons _
  | case2 c rest _ ih => exact ih.cons_cons c
  | case3 afterStar c rest ih => exact ih.cons c
  | case4 quote escaped c rest ih => exact ih.cons_cons c
  | case5 => exact List.Sublist.slnil

-- In a text that holds no comments none starts with the first character.
theorem settled_cons {inside : Inside} {c : Char} {text : List Char} (outside : inside.mark = none)
    (settled : dropComments inside (c :: text) = c :: text) :
    (inside = .code → ¬ commentMark <+: c :: text) ∧
      dropComments (inside.next c) text = text := by
  have plain : inside = .code → ¬ commentMark <+: c :: text := by
    rintro rfl marked
    obtain ⟨rfl, star⟩ := comment_starts_iff.1 marked
    obtain ⟨rest, rfl⟩ := List.head?_eq_some_iff.1 star
    have shorter := (dropComments_sublist (.comment false) rest).length_le
    have longer : (dropComments (.comment false) rest).length = rest.length + 2 :=
      congrArg List.length settled
    omega
  rw [dropComments_cons outside plain] at settled
  exact ⟨plain, (List.cons.inj settled).2⟩

theorem dropComments_append {inside : Inside} {text rest : List Char}
    (other : rest.head? ≠ some '*') :
    dropComments inside (text ++ rest) =
      dropComments inside text ++ dropComments (inside.after text) rest := by
  fun_induction Inside.after inside text with
  | case1 text ih => simpa [dropComments] using ih
  | case2 inside c text plain ih =>
    cases outside : inside.mark with
    | some afterStar =>
      cases inside with
      | comment afterStar => simpa [dropComments, Inside.next] using ih
      | _ => simp [Inside.mark] at outside
    | none =>
      have code : inside = .code → ¬ commentMark <+: c :: text := fun inside_eq =>
        no_comment_of_plain fun rest' => plain rest' inside_eq
      have whole : inside = .code → ¬ commentMark <+: c :: (text ++ rest) := fun inside_eq =>
        no_comment_append (code inside_eq) other
      rw [List.cons_append, dropComments_cons outside whole, dropComments_cons outside code, ih,
        List.cons_append]
  | case3 inside => cases inside <;> simp [dropComments]

-- A string that looks like the start of a comment keeps looking so without the comments.
theorem no_comment_of_unmarked {inside : Inside} {c : Char} {text : List Char}
    (outside : inside.mark = none) (plain : inside = .code → ¬ commentMark <+: c :: text)
    (unmarked : Unmarked (dropComments inside (c :: text))) : ¬ commentMark <+: c :: text := by
  intro marked
  obtain ⟨rfl, star⟩ := comment_starts_iff.1 marked
  obtain ⟨rest, rfl⟩ := List.head?_eq_some_iff.1 star
  rw [dropComments_cons outside plain,
    dropComments_cons (Inside.mark_next outside '/') (by simp [comment_starts_iff])] at unmarked
  exact (unmarked_cons.1 unmarked).1 (by simp [commentMark])

-- Where no comment starts in a text without its comments, it does not matter whether strings
-- hide the start of one.
theorem dropComments_eq_dropMarked {inside : Inside} {text : List Char}
    (unmarked : Unmarked (dropComments inside text)) :
    dropComments inside text = dropMarked inside.mark text := by
  fun_induction Inside.after inside text with
  | case1 text ih =>
    simp only [dropComments] at unmarked ⊢
    simpa [Inside.mark, dropMarked] using ih unmarked
  | case2 inside c text plain ih =>
    cases outside : inside.mark with
    | some afterStar =>
      cases inside with
      | comment star =>
        obtain rfl : star = afterStar := by simpa [Inside.mark] using outside
        simp only [dropComments, Inside.next] at unmarked ih ⊢
        rw [ih unmarked, Inside.mark_stepComment, dropMarked]
      | _ => simp [Inside.mark] at outside
    | none =>
      have code : inside = .code → ¬ commentMark <+: c :: text := fun inside_eq =>
        no_comment_of_plain fun rest' => plain rest' inside_eq
      have whole := no_comment_of_unmarked outside code unmarked
      rw [dropComments_cons outside code] at unmarked ⊢
      rw [dropMarked_cons whole, ih (unmarked_cons.1 unmarked).2, Inside.mark_next outside]
  | case3 inside => cases inside <;> simp [dropComments, dropMarked]

theorem unmarked_next {inside : Inside} {c : Char} {text : List Char}
    (outside : inside.mark = none) (code : ¬ commentMark <+: c :: text)
    (unmarked : Unmarked (dropComments inside (c :: text))) :
    Unmarked (dropComments (inside.next c) text) := by
  rw [dropComments_cons outside fun _ => code] at unmarked
  exact (unmarked_cons.1 unmarked).2

-- The brace that closes a block stands in no comment.
theorem mark_after_of_closed {depth : Nat} {inside : Inside} {text body behind : List Char}
    (closed : untilClosed depth inside.mark text = some (body, behind))
    (unmarked : Unmarked (dropComments inside body)) : (inside.after body).mark = none := by
  generalize marked : inside.mark = mark at closed
  fun_induction dropMarked mark text generalizing depth inside body with
  | case1 => simp [untilClosed] at closed
  | case2 rest ih =>
    obtain ⟨inner, found, rfl⟩ := eq_of_prepend closed
    have code : inside = .code := by
      by_contra quoted
      exact no_comment_of_unmarked marked (fun code => absurd code quoted) unmarked
        (by simp [commentMark])
    subst code
    have within : Unmarked (dropComments (.comment false) inner) := unmarked
    have outside := ih within rfl found
    exact outside
  | case3 afterStar c rest ih =>
    rw [untilClosed] at closed
    obtain ⟨inner, found, rfl⟩ := eq_of_prepend closed
    cases inside with
    | comment star =>
      obtain rfl : star = afterStar := by simpa [Inside.mark] using marked
      rw [List.singleton_append, Inside.after_cons (by simp)]
      exact ih unmarked (Inside.mark_stepComment star c) found
    | _ => simp [Inside.mark] at marked
  | case4 c rest plain ih =>
    have code := no_comment_of_plain plain
    rw [untilClosed_cons code] at closed
    split at closed
    · cases closed
      cases inside <;> exact marked
    · obtain ⟨inner, found, rfl⟩ := eq_of_prepend closed
      have code := no_comment_body code found
      rw [List.singleton_append, Inside.after_cons fun _ => code]
      exact ih (unmarked_next marked code unmarked) (Inside.mark_next marked _) found

namespace Place

def Between (place : Place) (text : List Char) : Prop :=
  place.afterSlash = true → place.inside = .code ∧ text.head? ≠ some '*'

theorem walk_append (place : Place) (text rest : List Char) :
    place.walk (text ++ rest) = (place.walk text).walk rest := List.foldl_append

theorem between_top (text : List Char) : top.Between text := by simp [Between, top]

-- What is left of a slash in front of a place does not matter between comments.
theorem step_of_between {place : Place} {c : Char} {rest : List Char}
    (between : place.Between (c :: rest)) :
    place.step c = step ⟨place.depth, place.inside, false⟩ c := by
  obtain ⟨depth, inside, afterSlash⟩ := place
  cases afterSlash with
  | false => rfl
  | true =>
    obtain ⟨code, star⟩ := between rfl
    obtain rfl : inside = .code := code
    have other : c ≠ '*' := by simpa using star
    simp [step, other]

theorem step_start {place : Place} (code : place.inside = .code) :
    (place.step '/').step '*' = ⟨place.depth, .comment false, false⟩ := by
  simp [step, code, isQuoteMark]

theorem inside_step (depth : Nat) (inside : Inside) (c : Char) :
    (step ⟨depth, inside, false⟩ c).inside = inside.next c := by
  cases inside with
  | code =>
    simp only [step, Inside.next, Bool.false_and]
    (repeat' split) <;> simp_all
  | _ => rfl

theorem between_step {depth : Nat} {inside : Inside} {c : Char} {rest : List Char}
    (plain : inside = .code → ¬ commentMark <+: c :: rest) :
    (step ⟨depth, inside, false⟩ c).Between rest := by
  intro slash
  cases inside with
  | code =>
    have code := plain rfl
    rw [comment_starts_iff, not_and] at code
    simp only [step, Bool.false_and] at slash ⊢
    (repeat' split at slash) <;> simp_all
  | _ => simp [step] at slash

theorem inside_walk {place : Place} {text : List Char} (between : place.Between text) :
    (place.walk text).inside = place.inside.after text := by
  generalize inside_eq : place.inside = inside
  fun_induction Inside.after inside text generalizing place with
  | case1 text ih =>
    have stepped := step_start inside_eq
    have within : ((place.step '/').step '*').Between text := by simp [stepped, Between]
    exact ih within (by rw [stepped])
  | case2 inside c text plain ih =>
    have code : inside = .code → ¬ commentMark <+: c :: text := fun code =>
      no_comment_of_plain fun rest' => plain rest' code
    rw [← inside_eq] at code
    have stepped := step_of_between between
    have behind : (place.step c).Between text := stepped ▸ between_step code
    exact ih behind (by rw [stepped, inside_step, inside_eq])
  | case3 => exact inside_eq

end Place

structure Kept (place kept : Place) (text : List Char) : Prop where
  depth : kept.depth = place.depth
  inside : kept.inside = place.inside.kept
  between : place.Between text
  keptBetween : kept.Between (dropComments place.inside text)
  settled : dropComments kept.inside (dropComments place.inside text) =
    dropComments place.inside text

namespace Kept

variable {place kept : Place} {c : Char} {text rest : List Char}

theorem start (code : place.inside = .code) (both : Kept place kept ('/' :: '*' :: rest)) :
    Kept ((place.step '/').step '*') kept rest := by
  obtain ⟨depth, inside, _, keptBetween, settled⟩ := both
  rw [code] at inside keptBetween settled
  rw [Place.step_start code]
  exact ⟨depth, inside, by simp [Place.Between], keptBetween, settled⟩

theorem comment {afterStar : Bool} (commented : place.inside = .comment afterStar)
    (both : Kept place kept (c :: rest)) : Kept (place.step c) kept rest := by
  obtain ⟨depth, inside, between, keptBetween, settled⟩ := both
  have stepped : place.step c = ⟨place.depth, Inside.stepComment afterStar c, false⟩ := by
    rw [Place.step_of_between between, commented]
    rfl
  rw [commented] at inside keptBetween settled
  rw [stepped]
  refine ⟨depth, ?_, by simp [Place.Between], keptBetween, settled⟩
  rw [inside, Inside.stepComment]
  split <;> rfl

theorem step (outside : place.inside.mark = none)
    (plain : place.inside = .code → ¬ commentMark <+: c :: rest)
    (both : Kept place kept (c :: rest)) : Kept (place.step c) (kept.step c) rest := by
  obtain ⟨depth, inside, between, keptBetween, settled⟩ := both
  rw [Inside.kept_of_mark outside] at inside
  rw [inside, dropComments_cons outside plain] at settled
  rw [dropComments_cons outside plain] at keptBetween
  obtain ⟨keptPlain, below⟩ := settled_cons outside settled
  have stepped : place.step c = kept.step c := by
    rw [Place.step_of_between between, Place.step_of_between keptBetween, depth, inside]
  rw [← stepped, Place.step_of_between between]
  have behind := Place.inside_step place.depth place.inside c
  refine ⟨rfl, ?_, Place.between_step plain, ?_, ?_⟩
  · rw [behind, Inside.kept_of_mark (Inside.mark_next outside c)]
  · rw [behind]
    exact Place.between_step keptPlain
  · rw [behind]
    exact below

-- Both places walk along: one over a text, the other over what is left of it.
theorem walk (other : rest.head? ≠ some '*') (both : Kept place kept (text ++ rest)) :
    Kept (place.walk text) (kept.walk (dropComments place.inside text)) rest := by
  generalize inside_eq : place.inside = inside
  fun_induction Inside.after inside text generalizing place kept with
  | case1 text ih => exact ih (both.start inside_eq) (by rw [Place.step_start inside_eq])
  | case2 inside c text plain ih =>
    have code : inside = .code → ¬ commentMark <+: c :: text := fun inside_eq =>
      no_comment_of_plain fun rest' => plain rest' inside_eq
    have stepped : (place.step c).inside = inside.next c := by
      rw [Place.step_of_between both.between, Place.inside_step, inside_eq]
    cases outside : inside.mark with
    | some afterStar =>
      cases inside with
      | comment star => exact ih (both.comment inside_eq) stepped
      | _ => simp [Inside.mark] at outside
    | none =>
      rw [dropComments_cons outside code]
      have whole : inside = .code → ¬ commentMark <+: c :: (text ++ rest) := fun inside_eq =>
        no_comment_append (code inside_eq) other
      subst inside_eq
      exact ih (both.step outside whole) stepped
  | case3 inside =>
    have nothing : dropComments inside [] = [] := by cases inside <;> rfl
    rw [nothing]
    exact both

end Kept

-- A character that stands in no comment stays where it is when comments are dropped.
theorem dropComments_around {inside : Inside} {text rest : List Char} {c : Char} (slash : c ≠ '/')
    (star : c ≠ '*') (outside : (inside.after text).mark = none) :
    dropComments inside (text ++ c :: rest) =
      dropComments inside text ++ c :: dropComments (inside.after (text ++ [c])) rest := by
  rw [dropComments_append (by simpa using star), Inside.after_append (by simpa using star),
    Inside.after_singleton,
    dropComments_cons outside (by simp [comment_starts_iff, slash])]

-- A place stays between comments whatever follows a character.
theorem Place.Between.of_head {place : Place} {text rest rest' : List Char} {c : Char}
    (between : place.Between (text ++ c :: rest)) : place.Between (text ++ c :: rest') := by
  cases text <;> exact between

theorem Kept.walk_past {place kept : Place} {text rest : List Char} {c : Char} (slash : c ≠ '/')
    (star : c ≠ '*') (outside : (place.inside.after text).mark = none)
    (both : Kept place kept (text ++ c :: rest)) :
    (place.walk (text ++ [c])).inside = place.inside.after (text ++ [c]) ∧
      Kept (place.walk (text ++ [c])) (kept.walk (dropComments place.inside text ++ [c])) rest := by
  have inside : (place.walk text).inside = place.inside.after text := by
    refine Place.inside_walk fun slash => ⟨(both.between slash).1, ?_⟩
    have start := (both.between slash).2
    cases text <;> simp_all
  refine ⟨Place.inside_walk both.between.of_head, ?_⟩
  have before := both.walk (by simpa using star)
  rw [Place.walk_append, Place.walk_append]
  exact before.step (by rwa [inside]) (by simp [comment_starts_iff, slash])

end UtilityCss.Stylesheet
