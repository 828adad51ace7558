import UtilityCss.Proofs.Stylesheet.Body

set_option autoImplicit false

namespace UtilityCss

namespace Stylesheet

structure Splitter where
  depth : Nat
  quoted : Option (Char × Bool)
  deriving DecidableEq, Repr

namespace Splitter

def start : Splitter := ⟨0, none⟩

def stepQuoted (quote : Char) (escaped : Bool) (c : Char) : Option (Char × Bool) :=
  if escaped then some (quote, false)
  else if c = '\\' then some (quote, true)
  else if c = quote then none
  else some (quote, false)

def step (state : Splitter) (c : Char) : Splitter :=
  match state.quoted with
  | some (quote, escaped) => ⟨state.depth, stepQuoted quote escaped c⟩
  | none => if isQuoteMark c then ⟨state.depth, some (c, false)⟩ else ⟨nesting state.depth c, none⟩

def ends (state : Splitter) (c : Char) : Bool := c = ';' && state = start

def split (state : Splitter) (text : List Char) : List (List Char) :=
  splitStatements state.depth state.quoted text

def endsWith (state : Splitter) : List Char → Bool
  | [] => false
  | c :: rest => if state.ends c then rest.isEmpty else endsWith (state.step c) rest

def staysOpen (state : Splitter) : List Char → Bool
  | [] => true
  | c :: rest => !state.ends c && staysOpen (state.step c) rest

variable {state : Splitter} {c : Char} {text rest : List Char}

theorem split_start (text : List Char) : start.split text = statementsOf text := rfl

theorem split_cons (state : Splitter) (c : Char) (rest : List Char) :
    state.split (c :: rest) = if state.ends c then [c] :: start.split rest
      else attach [c] ((state.step c).split rest) := by
  obtain ⟨depth, quoted⟩ := state
  cases quoted with
  | some string =>
    obtain ⟨quote, escaped⟩ := string
    have stays : ends ⟨depth, some (quote, escaped)⟩ c = false := by simp [ends, start]
    rw [stays, if_neg Bool.false_ne_true]
    simp only [split, splitStatements, step, stepQuoted]
    split_ifs <;> rfl
  | none =>
    by_cases ended : c = ';' ∧ depth = 0
    · obtain ⟨rfl, rfl⟩ := ended
      rfl
    · have stays : ends ⟨depth, none⟩ c = false := by simpa [ends, start] using ended
      rw [stays, if_neg Bool.false_ne_true]
      simp only [split, splitStatements, step, nesting, if_neg ended]
      split_ifs <;> rfl

inductive IsSplit : Splitter → List (List Char) → Prop where
  | nil {state : Splitter} : IsSplit state []
  | whole {state : Splitter} {piece : List Char} {pieces : List (List Char)} :
      state.endsWith piece = true → IsSplit start pieces → IsSplit state (piece :: pieces)
  | last {state : Splitter} {piece : List Char} :
      piece ≠ [] → state.staysOpen piece = true → IsSplit state [piece]

theorem isSplit_split (state : Splitter) (text : List Char) : IsSplit state (state.split text) := by
  induction text generalizing state with
  | nil => exact .nil
  | cons c rest ih =>
    rw [split_cons]
    split_ifs with ended
    · exact .whole (by simp [endsWith, ended]) (ih start)
    · have inner := ih (state.step c)
      generalize (state.step c).split rest = pieces at inner ⊢
      cases inner with
      | nil => exact .last (by simp) (by simp [staysOpen, ended])
      | whole whole others => exact .whole (by simpa [endsWith, ended] using whole) others
      | last nonempty stays => exact .last (by simp) (by simpa [staysOpen, ended] using stays)

theorem split_append_of_endsWith (whole : state.endsWith text = true) (rest : List Char) :
    state.split (text ++ rest) = text :: statementsOf rest := by
  induction text generalizing state with
  | nil => cases whole
  | cons c text ih =>
    rw [endsWith] at whole
    rw [List.cons_append, split_cons]
    split_ifs at whole ⊢ with ended
    · rw [List.isEmpty_iff.1 whole, List.nil_append, split_start]
    · rw [ih whole]
      rfl

theorem split_append_of_staysOpen (stays : state.staysOpen text = true) (nonempty : text ≠ [])
    (rest : List Char) : ∃ later : Splitter,
      state.split (text ++ rest) = attach text (later.split rest) := by
  induction text generalizing state with
  | nil => exact absurd rfl nonempty
  | cons c text ih =>
    rw [staysOpen, Bool.and_eq_true, Bool.not_eq_true'] at stays
    rw [List.cons_append, split_cons, stays.1, if_neg Bool.false_ne_true]
    by_cases last : text = []
    · subst last
      exact ⟨state.step c, rfl⟩
    · obtain ⟨later, split⟩ := ih stays.2 last
      refine ⟨later, ?_⟩
      rw [split]
      cases later.split rest <;> rfl

theorem last_of_endsWith (whole : state.endsWith text = true) : text.getLast? = some ';' := by
  induction text generalizing state with
  | nil => cases whole
  | cons c text ih =>
    rw [endsWith] at whole
    split_ifs at whole with ended
    · rw [ends, Bool.and_eq_true, decide_eq_true_eq] at ended
      rw [List.isEmpty_iff.1 whole, ended.1]
      rfl
    · rw [List.getLast?_cons, ih whole]
      rfl

theorem ends_of_blank (state : Splitter) (blank : isBlank c = true) : state.ends c = false := by
  simp [ends, isBlank_ne blank (by decide : isBlank ';' = false)]

theorem step_start_of_blank (blank : isBlank c = true) : start.step c = start := by
  have other {d : Char} (dark : isBlank d = false) : c ≠ d := isBlank_ne blank dark
  simp [step, start, nesting, isQuoteMark, other (by decide : isBlank '"' = false),
    other (by decide : isBlank '\'' = false), other (by decide : isBlank '{' = false),
    other (by decide : isBlank '(' = false), other (by decide : isBlank '}' = false),
    other (by decide : isBlank ')' = false)]

theorem endsWith_blank_append {blanks : List Char} (blank : Text.AllBlank blanks)
    (text : List Char) : start.endsWith (blanks ++ text) = start.endsWith text := by
  induction blanks with
  | nil => rfl
  | cons c blanks ih =>
    obtain ⟨first, others⟩ := List.forall_mem_cons.1 blank
    rw [List.cons_append, endsWith, ends_of_blank start first, if_neg Bool.false_ne_true,
      step_start_of_blank first, ih others]

theorem staysOpen_blank_append {blanks : List Char} (blank : Text.AllBlank blanks)
    (text : List Char) : start.staysOpen (blanks ++ text) = start.staysOpen text := by
  induction blanks with
  | nil => rfl
  | cons c blanks ih =>
    obtain ⟨first, others⟩ := List.forall_mem_cons.1 blank
    rw [List.cons_append, staysOpen, ends_of_blank start first, step_start_of_blank first,
      ih others]
    rfl

theorem staysOpen_of_append (stays : state.staysOpen (text ++ rest) = true) :
    state.staysOpen text = true := by
  induction text generalizing state with
  | nil => rfl
  | cons c text ih =>
    rw [List.cons_append, staysOpen, Bool.and_eq_true] at stays
    rw [staysOpen, stays.1, ih stays.2]
    rfl

end Splitter

open Splitter

/-- A text that is one statement, with the semicolon that ends it. -/
def IsWhole (statement : List Char) : Prop := Splitter.start.endsWith statement = true

instance (statement : List Char) : Decidable (IsWhole statement) :=
  inferInstanceAs (Decidable (_ = _))

def IsOpen (statement : List Char) : Prop := Splitter.start.staysOpen statement = true

instance (statement : List Char) : Decidable (IsOpen statement) :=
  inferInstanceAs (Decidable (_ = _))

variable {statement piece text rest : List Char} {before after : List (List Char)}

theorem IsWhole.last (whole : IsWhole statement) : statement.getLast? = some ';' :=
  last_of_endsWith whole

theorem statementsOf_append (whole : IsWhole statement) (rest : List Char) :
    statementsOf (statement ++ rest) = statement :: statementsOf rest :=
  split_append_of_endsWith whole rest

theorem statementsOf_open (stays : IsOpen statement) (nonempty : statement ≠ []) {c : Char}
    (rest : List Char) : ∃ behind more, statementsOf (statement ++ c :: rest) =
      (statement ++ c :: behind) :: more ∧
        (behind.getLast?.getD c = ';' ∨ behind = rest ∧ more = []) := by
  obtain ⟨later, split⟩ := split_append_of_staysOpen stays nonempty (c :: rest)
  rw [← split_start, split]
  have parted := isSplit_split later (c :: rest)
  have joined : (later.split (c :: rest)).flatten = c :: rest := flatten_splitStatements _ _ _
  generalize later.split (c :: rest) = pieces at parted joined
  cases parted with
  | nil => cases joined
  | @whole _ first pieces ended others =>
    cases first with
    | nil => cases ended
    | cons d first =>
      obtain rfl : d = c := (List.cons.inj joined).1
      refine ⟨first, pieces, rfl, .inl ?_⟩
      have last := last_of_endsWith ended
      rw [List.getLast?_cons] at last
      exact Option.some.inj last
  | @last _ first nonempty stays =>
    rw [List.flatten_singleton] at joined
    subst joined
    exact ⟨rest, [], rfl, .inr ⟨rfl, rfl⟩⟩

theorem isWhole_or_last (split : statementsOf text = before ++ piece :: after) :
    IsWhole piece ∨ after = [] ∧ IsOpen piece := by
  have parted := isSplit_split start text
  rw [split_start, split] at parted
  clear split
  induction before with
  | nil =>
    cases parted with
    | whole whole _ => exact .inl whole
    | last _ stays => exact .inr ⟨rfl, stays⟩
  | cons first before ih =>
    rw [List.cons_append] at parted
    generalize whole : before ++ piece :: after = pieces at parted
    cases parted with
    | whole _ others => exact ih (whole ▸ others)
    | last _ _ => simp at whole

theorem IsWhole.trim (whole : IsWhole statement) : IsWhole (Text.trim statement) := by
  obtain ⟨before, after, blank, blankAfter, joined⟩ := Text.exists_trim statement
  have last := whole.last
  rw [joined, List.append_assoc, IsWhole, endsWith_blank_append blank] at whole
  cases after using List.reverseRecOn with
  | nil => rwa [List.append_nil] at whole
  | append_singleton after c =>
    rw [joined, ← List.append_assoc, List.getLast?_concat, Option.some.injEq] at last
    exact absurd last (isBlank_ne (blankAfter c (by simp)) (by decide))

theorem IsOpen.trim (stays : IsOpen statement) : IsOpen (Text.trim statement) := by
  obtain ⟨before, after, blank, -, joined⟩ := Text.exists_trim statement
  rw [joined, List.append_assoc, IsOpen, staysOpen_blank_append blank] at stays
  exact staysOpen_of_append stays

def statementTexts (text : List Char) : List (List Char) :=
  ((statementsOf text).map Text.trim).filter (· ≠ [])

theorem statementTexts_append (whole : IsWhole statement) (trimmed : Text.Trimmed statement)
    (rest : List Char) : statementTexts (statement ++ rest) = statement :: statementTexts rest := by
  have nonempty : statement ≠ [] := by
    rintro rfl
    cases whole
  simp [statementTexts, statementsOf_append whole, Text.trim_eq_self trimmed, nonempty]

theorem statementTexts_blank_cons {c : Char} (blank : isBlank c = true) (rest : List Char) :
    statementTexts (c :: rest) = statementTexts rest := by
  have one : Text.AllBlank [c] := List.forall_mem_singleton.2 blank
  rw [statementTexts, statementTexts, ← split_start, split_cons, ends_of_blank start blank,
    if_neg Bool.false_ne_true, step_start_of_blank blank, split_start]
  cases statementsOf rest with
  | nil => simp [attach, Text.trim, Text.trimStart, Text.trimEnd, Text.dropWhileEnd, blank]
  | cons piece pieces =>
    rw [attach, List.map_cons, List.map_cons, Text.trim_blank_append one]

theorem allBlank_of_statementTexts (stays : IsOpen statement) (nonempty : statement ≠ [])
    (trimmed : Text.Trimmed statement) {c : Char} {others : List (List Char)}
    (same : statementTexts (statement ++ c :: rest) = statement :: others) :
    Text.AllBlank rest := by
  obtain ⟨behind, more, split, ending⟩ := statementsOf_open (c := c) stays nonempty rest
  have first : ∀ d ∈ (statement ++ c :: behind).head?, isBlank d = false := by
    rw [List.head?_append_of_ne_nil _ nonempty]
    exact trimmed.first
  have kept : Text.trim (statement ++ c :: behind) = Text.trimEnd (statement ++ c :: behind) := by
    rw [Text.trim, Text.trimStart_of_first first]
  obtain ⟨blanks, allBlank, joined⟩ := Text.exists_trimEnd (statement ++ c :: behind)
  have spoken : Text.trim (statement ++ c :: behind) ≠ [] := by
    obtain ⟨d, tail, rfl⟩ := List.exists_cons_of_ne_nil nonempty
    obtain ⟨others, starts⟩ := Text.exists_trim_cons (first d rfl) (tail ++ c :: behind)
    rw [List.cons_append, starts]
    exact List.cons_ne_nil d others
  rw [statementTexts, split, List.map_cons, List.filter_cons_of_pos (by simpa using spoken),
    List.cons.injEq, kept] at same
  rw [same.1, List.append_cancel_left_eq] at joined
  subst joined
  rcases ending with last | ⟨rfl, -⟩
  · have member : behind.getLast?.getD c ∈ c :: behind := by
      cases found : behind.getLast? with
      | none => exact List.mem_cons_self
      | some d => exact List.mem_cons_of_mem c (List.mem_of_getLast? found)
    exact absurd last (isBlank_ne (allBlank _ member) (by decide))
  · exact fun d member => allBlank d (List.mem_cons_of_mem c member)

theorem directives_readLine (line : List Char) :
    (readLine line).directives = (statementsOf line).filterMap directive? := by
  have found : (readLine line).directives =
      ((statementsOf line).map fun piece => (directive? piece, piece)).filterMap Prod.fst := by
    unfold readLine
    dsimp only
    split_ifs with none
    · exact (List.isEmpty_iff.1 none).symm
    all_goals rfl
  rw [found, List.filterMap_map]
  rfl

end Stylesheet

end UtilityCss
