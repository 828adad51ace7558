import Mathlib.Data.List.Infix
import UtilityCss.Candidate.Token

set_option autoImplicit false

namespace UtilityCss.Candidate

variable {text rest group inside before after opened closed : List Char} {inner : Bool} {c : Char}

def IsFiller (c : Char) : Prop := isBlank c = false ∧ c ≠ '[' ∧ c ≠ ']'

instance (c : Char) : Decidable (IsFiller c) := inferInstanceAs (Decidable (_ ∧ _))

inductive Filling : List Char → Prop
  | nil : Filling []
  | char {c : Char} {rest : List Char} (filler : IsFiller c) (later : Filling rest) :
      Filling (c :: rest)
  | inner {inside rest : List Char} (fillers : ∀ c ∈ inside, IsFiller c) (later : Filling rest) :
      Filling ('[' :: inside ++ ']' :: rest)

def IsBracketed (text : List Char) : Prop :=
  ∃ inside, Filling inside ∧ text = '[' :: (inside ++ [']'])

theorem filling_of_fillers (fillers : ∀ c ∈ text, IsFiller c) : Filling text := by
  induction text with
  | nil => exact .nil
  | cons c rest ih =>
    obtain ⟨filler, others⟩ := List.forall_mem_cons.1 fillers
    exact .char filler (ih others)

theorem prependChar_eq_some {result : Option (List Char × List Char)} :
    prependChar c result = some (group, rest) ↔
      ∃ more, result = some (more, rest) ∧ group = c :: more := by
  rcases result with _ | ⟨more, others⟩
  · simp [prependChar]
  · simp only [prependChar, Option.some.injEq, Prod.mk.injEq]
    constructor
    · rintro ⟨rfl, rfl⟩
      exact ⟨more, ⟨rfl, rfl⟩, rfl⟩
    · rintro ⟨more, ⟨rfl, rfl⟩, rfl⟩
      exact ⟨rfl, rfl⟩

theorem group?_filler (filler : IsFiller c) (inner : Bool) (rest : List Char) :
    group? inner (c :: rest) = prependChar c (group? inner rest) := by
  obtain ⟨dark, opening, closing⟩ := filler
  rw [group?, if_neg (by simp [dark]), if_neg closing, if_neg opening]

theorem group?_fillers (fillers : ∀ c ∈ text, IsFiller c)
    (found : group? inner after = some (group, rest)) :
    group? inner (text ++ after) = some (text ++ group, rest) := by
  induction text with
  | nil => exact found
  | cons c text ih =>
    obtain ⟨filler, others⟩ := List.forall_mem_cons.1 fillers
    rw [List.cons_append, group?_filler filler, ih others]
    rfl

theorem group?_of_filling (filling : Filling inside) (rest : List Char) :
    group? false (inside ++ ']' :: rest) = some (inside ++ [']'], rest) := by
  induction filling with
  | nil => rfl
  | char filler _ ih =>
    rw [List.cons_append, group?_filler filler, ih]
    rfl
  | @inner fillers later isFiller _ ih =>
    have closes : group? true (']' :: (later ++ ']' :: rest)) =
        some (']' :: (later ++ [']']), rest) := by
      have close : group? true (']' :: (later ++ ']' :: rest)) =
          prependChar ']' (group? false (later ++ ']' :: rest)) := rfl
      rw [close, ih]
      rfl
    have enter : group? false ('[' :: (fillers ++ ']' :: (later ++ ']' :: rest))) =
        prependChar '[' (group? true (fillers ++ ']' :: (later ++ ']' :: rest))) := rfl
    simp only [List.cons_append, List.append_assoc]
    rw [enter, group?_fillers isFiller closes]
    rfl

def Closes : Bool → List Char → Prop
  | false, group => ∃ inside, Filling inside ∧ group = inside ++ [']']
  | true, group => ∃ fillers inside, (∀ c ∈ fillers, IsFiller c) ∧ Filling inside ∧
      group = fillers ++ ']' :: (inside ++ [']'])

theorem Closes.filler (filler : IsFiller c) (closes : Closes inner group) :
    Closes inner (c :: group) := by
  cases inner with
  | false =>
    obtain ⟨inside, filling, rfl⟩ := closes
    exact ⟨c :: inside, .char filler filling, rfl⟩
  | true =>
    obtain ⟨fillers, inside, areFillers, filling, rfl⟩ := closes
    exact ⟨c :: fillers, inside, List.forall_mem_cons.2 ⟨filler, areFillers⟩, filling, rfl⟩

theorem closes_of_group? (found : group? inner text = some (group, rest)) : Closes inner group := by
  induction text generalizing inner group with
  | nil => cases found
  | cons c text ih =>
    unfold group? at found
    split_ifs at found with blank closing level opening level
    · -- The brackets inside are closed.
      obtain ⟨more, later, rfl⟩ := prependChar_eq_some.1 found
      obtain ⟨inside, filling, rfl⟩ : Closes false more := ih later
      subst level closing
      exact ⟨[], inside, by simp, filling, rfl⟩
    · obtain ⟨rfl, rfl⟩ := Prod.mk.inj (Option.some.inj found)
      obtain rfl : inner = false := by simpa using level
      exact ⟨[], .nil, by rw [closing]; rfl⟩
    · -- Brackets are opened inside.
      obtain ⟨more, later, rfl⟩ := prependChar_eq_some.1 found
      obtain ⟨fillers, inside, areFillers, filling, rfl⟩ : Closes true more := ih later
      obtain rfl : inner = false := by simpa using level
      subst opening
      exact ⟨'[' :: fillers ++ ']' :: inside, .inner areFillers filling, by simp⟩
    · obtain ⟨more, later, rfl⟩ := prependChar_eq_some.1 found
      exact (ih later).filler ⟨by simpa using blank, opening, closing⟩

theorem group?_eq_some_iff : group? false text = some (group, rest) ↔
    text = group ++ rest ∧ IsBracketed ('[' :: group) := by
  constructor
  · intro found
    obtain ⟨inside, filling, same⟩ := closes_of_group? found
    exact ⟨eq_of_group found, inside, filling, by rw [same]⟩
  · rintro ⟨rfl, inside, filling, same⟩
    obtain rfl : group = inside ++ [']'] := (List.cons.inj same).2
    rw [List.append_assoc]
    exact group?_of_filling filling rest

theorem group?_of_bracketed (bracketed : IsBracketed ('[' :: group)) (rest : List Char) :
    group? false (group ++ rest) = some (group, rest) :=
  group?_eq_some_iff.2 ⟨rfl, bracketed⟩

theorem isBracketed_iff_group? :
    IsBracketed text ↔ ∃ rest, text = '[' :: rest ∧ group? false rest = some (rest, []) := by
  constructor
  · rintro ⟨inside, filling, rfl⟩
    exact ⟨_, rfl, group?_of_filling filling []⟩
  · rintro ⟨rest, rfl, found⟩
    exact (group?_eq_some_iff.1 found).2

instance (text : List Char) : Decidable (IsBracketed text) :=
  match text with
  | [] => .isFalse fun ⟨_, _, same⟩ => nomatch same
  | c :: rest => decidable_of_iff (c = '[' ∧ group? false rest = some (rest, [])) (by
      rw [isBracketed_iff_group?]
      constructor
      · rintro ⟨rfl, found⟩
        exact ⟨rest, rfl, found⟩
      · rintro ⟨other, same, found⟩
        obtain ⟨rfl, rfl⟩ := List.cons.inj same
        exact ⟨rfl, found⟩)

theorem IsBracketed.exists_cons (bracketed : IsBracketed text) : ∃ rest, text = '[' :: rest := by
  obtain ⟨inside, -, rfl⟩ := bracketed
  exact ⟨_, rfl⟩

theorem IsBracketed.eq_of_append (first : IsBracketed text) (second : IsBracketed group)
    (same : text ++ rest = group ++ after) : text = group := by
  obtain ⟨more, rfl⟩ := first.exists_cons
  obtain ⟨other, rfl⟩ := second.exists_cons
  have tail : more ++ rest = other ++ after := (List.cons.inj same).2
  have one := group?_of_bracketed first rest
  rw [tail, group?_of_bracketed second after] at one
  rw [(Prod.mk.inj (Option.some.inj one)).1]

theorem not_blank_of_filling (filling : Filling inside) : ∀ c ∈ inside, isBlank c = false := by
  induction filling with
  | nil => simp
  | char filler _ ih => exact List.forall_mem_cons.2 ⟨filler.1, ih⟩
  | inner fillers _ ih =>
    have own : ∀ c ∈ '[' :: _, isBlank c = false :=
      List.forall_mem_cons.2 ⟨by decide, fun c member => (fillers c member).1⟩
    exact List.forall_mem_append.2 ⟨own, List.forall_mem_cons.2 ⟨by decide, ih⟩⟩

theorem IsBracketed.not_blank (bracketed : IsBracketed text) : ∀ c ∈ text, isBlank c = false := by
  obtain ⟨inside, filling, rfl⟩ := bracketed
  refine List.forall_mem_cons.2 ⟨by decide, List.forall_mem_append.2 ⟨?_, ?_⟩⟩
  · exact not_blank_of_filling filling
  · exact List.forall_mem_singleton.2 (by decide)

theorem exists_inner (filling : Filling inside) (same : inside ++ [']'] = before ++ '[' :: rest) :
    ∃ fillers more, (∀ c ∈ fillers, IsFiller c) ∧ rest = fillers ++ ']' :: more ∧ more ≠ [] := by
  induction filling generalizing before with
  | nil =>
    cases before with
    | nil => exact absurd (List.cons.inj same).1 (by decide)
    | cons c before => simp at same
  | @char c others filler _ ih =>
    cases before with
    | nil => exact absurd (List.cons.inj same).1 filler.2.1
    | cons d before => exact ih (List.cons.inj same).2
  | @inner fillers others isFiller _ ih =>
    cases before with
    | nil =>
      refine ⟨fillers, others ++ [']'], isFiller, ?_, by simp⟩
      simpa using (List.cons.inj same).2.symm
    | cons d before =>
      have inner : fillers ++ ']' :: (others ++ [']']) = before ++ '[' :: rest := by
        simpa using (List.cons.inj same).2
      -- The bracket stands behind the brackets that hold fillers alone.
      rcases List.append_eq_append_iff.1 inner with ⟨more, rfl, behind⟩ | ⟨more, whole, -⟩
      · cases more with
        | nil => exact absurd (List.cons.inj behind).1 (by decide)
        | cons e more => exact ih (List.cons.inj behind).2
      · cases more with
        | nil =>
          rw [List.append_nil] at whole
          subst whole
          exact absurd (List.cons.inj (List.append_cancel_left inner)).1 (by decide)
        | cons e more =>
          rw [whole, List.append_assoc] at inner
          have first := (List.cons.inj (List.append_cancel_left inner)).1
          exact absurd first (isFiller e (by simp [whole])).2.1

theorem IsBracketed.closing_mem (bracketed : IsBracketed (opened ++ closed))
    (nonempty : closed ≠ []) : ']' ∈ closed := by
  obtain ⟨inside, -, same⟩ := bracketed
  have last := congrArg List.getLast? same
  rw [List.getLast?_append_of_ne_nil _ nonempty, ← List.cons_append, List.getLast?_concat] at last
  exact List.mem_of_getLast? last

theorem IsBracketed.ends_behind (outer : IsBracketed (opened ++ closed)) (inner : IsBracketed group)
    (some : opened ≠ []) (nonempty : closed ≠ []) (same : closed ++ after = group ++ rest) :
    ∃ more, closed = group ++ more := by
  obtain ⟨behind, rfl⟩ := inner.exists_cons
  obtain ⟨c, closed, rfl⟩ := List.exists_cons_of_ne_nil nonempty
  obtain ⟨d, opened, rfl⟩ := List.exists_cons_of_ne_nil some
  obtain ⟨rfl, -⟩ := List.cons.inj same
  obtain ⟨inside, filling, whole⟩ := outer
  obtain ⟨fillers, more, areFillers, rfl, -⟩ :=
    exists_inner filling (List.cons.inj whole).2.symm
  have value : IsBracketed ('[' :: (fillers ++ [']'])) :=
    ⟨fillers, filling_of_fillers areFillers, rfl⟩
  refine ⟨more, ?_⟩
  have begins : '[' :: (fillers ++ [']']) ++ (more ++ after) = '[' :: behind ++ rest := by
    simpa using same
  rw [← value.eq_of_append inner begins]
  simp

theorem IsBracketed.goes_past (bracketed : IsBracketed (opened ++ closed)) (nonempty : closed ≠ [])
    (fillers : ∀ c ∈ text, IsFiller c) (same : closed ++ rest = text ++ after) :
    ∃ more, more ≠ [] ∧ closed = text ++ more ∧ after = more ++ rest := by
  have closing := bracketed.closing_mem nonempty
  have stays : ']' ∉ text := fun member => (fillers _ member).2.2 rfl
  rcases List.append_eq_append_iff.1 same with ⟨more, rfl, -⟩ | ⟨more, rfl, behind⟩
  · exact absurd (List.mem_append_left more closing) stays
  · refine ⟨more, ?_, rfl, behind⟩
    rintro rfl
    rw [List.append_nil] at closing
    exact stays closing

theorem group?_insert (fillers : ∀ c ∈ text, IsFiller c) (nonempty : after ≠ []) :
    group? inner (before ++ (text ++ after)) = some (before ++ (text ++ after), []) ↔
      group? inner (before ++ after) = some (before ++ after, []) := by
  induction before generalizing inner with
  | nil =>
    induction text with
    | nil => rfl
    | cons c text ih =>
      obtain ⟨filler, others⟩ := List.forall_mem_cons.1 fillers
      have step := ih others
      rw [List.nil_append, List.nil_append] at step ⊢
      rw [List.cons_append, group?_filler filler, prependChar_eq_some, ← step]
      simp
  | cons c before ih =>
    have step (inner : Bool) : prependChar c (group? inner (before ++ (text ++ after))) =
          some (c :: (before ++ (text ++ after)), []) ↔
        prependChar c (group? inner (before ++ after)) = some (c :: (before ++ after), []) := by
      rw [prependChar_eq_some, prependChar_eq_some]
      simpa using ih
    rw [List.cons_append, List.cons_append, group?, group?]
    split_ifs
    · simp
    · exact step false
    · simp [nonempty]
    · simp
    · exact step true
    · exact step inner

theorem isBracketed_insert (fillers : ∀ c ∈ text, IsFiller c) (some : opened ≠ [])
    (nonempty : closed ≠ []) :
    IsBracketed (opened ++ (text ++ closed)) ↔ IsBracketed (opened ++ closed) := by
  obtain ⟨c, opened, rfl⟩ := List.exists_cons_of_ne_nil some
  simp only [isBracketed_iff_group?, List.cons_append, List.cons.injEq]
  constructor
  · rintro ⟨_, ⟨rfl, rfl⟩, found⟩
    exact ⟨_, ⟨rfl, rfl⟩, (group?_insert fillers nonempty).1 found⟩
  · rintro ⟨_, ⟨rfl, rfl⟩, found⟩
    exact ⟨_, ⟨rfl, rfl⟩, (group?_insert fillers nonempty).2 found⟩

def InBrackets (before after : List Char) : Prop :=
  ∃ opened closed, opened <:+ before ∧ closed <+: after ∧ opened ≠ [] ∧ closed ≠ [] ∧
    IsBracketed (opened ++ closed)

instance (before after : List Char) : Decidable (InBrackets before after) :=
  decidable_of_iff (∃ opened ∈ before.tails, ∃ closed ∈ after.inits, opened ≠ [] ∧ closed ≠ [] ∧
      IsBracketed (opened ++ closed)) (by
    simp only [InBrackets, List.mem_tails, List.mem_inits]
    exact exists_congr fun opened => exists_and_left.symm.trans (by simp))

theorem InBrackets.mono (inBrackets : InBrackets text rest) (ends : text <:+ before) :
    InBrackets before rest := by
  obtain ⟨opened, closed, isEnd, others⟩ := inBrackets
  exact ⟨opened, closed, isEnd.trans ends, others⟩

theorem inBrackets_insert (fillers : ∀ c ∈ text, IsFiller c) :
    InBrackets before (rest ++ (text ++ after)) ↔ InBrackets before (rest ++ after) := by
  constructor
  · rintro ⟨opened, closed, ends, ⟨behind, same⟩, some, nonempty, bracketed⟩
    rcases List.append_eq_append_iff.1 same with ⟨more, rfl, -⟩ | ⟨more, rfl, later⟩
    · exact ⟨opened, closed, ends, ⟨more ++ after, by simp⟩, some, nonempty, bracketed⟩
    · by_cases none : more = []
      · subst none
        exact ⟨opened, rest ++ [], ends, ⟨after, by simp⟩, some, nonempty, bracketed⟩
      · rw [← List.append_assoc] at bracketed
        obtain ⟨others, held, rfl, rfl⟩ := bracketed.goes_past none fillers later.symm
        rw [isBracketed_insert fillers (by simp [some]) held, List.append_assoc] at bracketed
        exact ⟨opened, rest ++ others, ends, ⟨behind, by simp⟩, some, by simp [held], bracketed⟩
  · rintro ⟨opened, closed, ends, ⟨behind, same⟩, some, nonempty, bracketed⟩
    rcases List.append_eq_append_iff.1 same with ⟨more, rfl, -⟩ | ⟨more, rfl, rfl⟩
    · exact ⟨opened, closed, ends, ⟨more ++ (text ++ after), by simp⟩, some, nonempty, bracketed⟩
    · by_cases none : more = []
      · subst none
        exact ⟨opened, rest ++ [], ends, ⟨text ++ behind, by simp⟩, some, nonempty, bracketed⟩
      · rw [← List.append_assoc, ← isBracketed_insert fillers (by simp [some]) none,
          List.append_assoc] at bracketed
        exact ⟨opened, rest ++ (text ++ more), ends, ⟨behind, by simp⟩, some, by simp [none],
          bracketed⟩

theorem InBrackets.exists_outermost (inBrackets : InBrackets before after) :
    ∃ outside opened closed rest, before = outside ++ opened ∧ after = closed ++ rest ∧
      opened ≠ [] ∧ closed ≠ [] ∧ IsBracketed (opened ++ closed) ∧
        ¬ InBrackets outside (opened ++ after) := by
  obtain ⟨opened, closed, ⟨outside, rfl⟩, ⟨rest, rfl⟩, some, nonempty, bracketed⟩ := inBrackets
  induction size : outside.length using Nat.strong_induction_on
    generalizing outside opened closed rest with
  | _ bound ih =>
    by_cases further : InBrackets outside (opened ++ (closed ++ rest))
    · obtain ⟨start, held, ⟨left, rfl⟩, ⟨behind, same⟩, began, holds, outer⟩ := further
      rw [← List.append_assoc] at same
      obtain ⟨more, rfl⟩ := outer.ends_behind bracketed began holds same
      obtain rfl : rest = more ++ behind := by simpa using same.symm
      have shorter : left.length < bound := by
        have positive := List.length_pos_iff.2 began
        rw [← size, List.length_append]
        omega
      obtain ⟨outside, all⟩ := ih _ shorter (start ++ opened) (closed ++ more) left behind
        (by simp [began]) (by simp [nonempty]) (by simpa using outer) rfl
      exact ⟨outside, by simpa using all⟩
    · exact ⟨outside, opened, closed, rest, rfl, rfl, some, nonempty, bracketed, further⟩

end UtilityCss.Candidate
