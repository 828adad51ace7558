import UtilityCss.Proofs.Stylesheet.Body
import UtilityCss.Proofs.Stylesheet.Uncommented

set_option autoImplicit false

namespace UtilityCss.Stylesheet

inductive Encloses : Char → Char → Prop where
  | braces : Encloses '{' '}'
  | parentheses : Encloses '(' ')'

def structural : List Char := [';', '{', '}', '(', ')']

theorem eq_of_quote {mark : Char} (quote : isQuoteMark mark = true) : mark = '"' ∨ mark = '\'' := by
  simpa [isQuoteMark] using quote

theorem not_structural_of_quote {mark : Char} (quote : isQuoteMark mark = true) :
    mark ∉ structural := by
  rcases eq_of_quote quote with rfl | rfl <;> decide

inductive IsValue (allowed : List Char → Prop) : (nested : Bool) → List Char → Prop where
  | nil {nested : Bool} : IsValue allowed nested []
  | plain {nested : Bool} {c : Char} {rest : List Char} (code : ¬ commentMark <+: c :: rest)
      (quote : isQuoteMark c = false) (level : c ∉ structural)
      (below : IsValue allowed nested rest) : IsValue allowed nested (c :: rest)
  | semicolon {rest : List Char} (below : IsValue allowed true rest) :
      IsValue allowed true (';' :: rest)
  | string {nested : Bool} {mark : Char} {text rest : List Char} (quote : isQuoteMark mark = true)
      (within : ∀ c ∈ text, c ≠ mark ∧ c ≠ '\\' ∧ c ≠ '\n') (allows : allowed text)
      (below : IsValue allowed nested rest) : IsValue allowed nested (mark :: (text ++ mark :: rest))
  | brackets {nested : Bool} {opens closes : Char} {inner rest : List Char}
      (encloses : Encloses opens closes) (inside : IsValue allowed true inner)
      (below : IsValue allowed nested rest) :
      IsValue allowed nested (opens :: (inner ++ closes :: rest))

structure IsName (name : List Char) : Prop where
  dashes : ['-', '-'] <+: name
  dark : ∀ c ∈ name, isBlank c = false
  level : ∀ c ∈ name, isQuoteMark c = false ∧ c ≠ ':' ∧ c ∉ structural
  unmarked : Unmarked name

structure IsDeclaration (allowed : List Char → Prop) (pair : String × String) : Prop where
  name : IsName pair.1.toList
  value : IsValue allowed false pair.2.toList
  filled : pair.2.toList ≠ []
  trimmed : Text.Trimmed pair.2.toList

def lead (name : String) : List Char := ' ' :: (name.toList ++ [':', ' '])

def entry (pair : String × String) : List Char := lead pair.1 ++ (pair.2.toList ++ [';'])

def inner (pairs : List (String × String)) : List Char := pairs.flatMap entry ++ [' ']

def written (pairs : List (String × String)) (following : List Char) : String :=
  String.ofList (themeMarker ++ ' ' :: '{' :: (inner pairs ++ '}' :: following))

/-- Whether the block is read back: it declares the pairs and nothing of it is left in the body. -/
structure RoundTrips (path : Path) (pairs : List (String × String)) (following : List Char) :
    Prop where
  declarations : (parse path (written pairs following)).declarations = pairs
  body : (parse path (written pairs following)).body = String.ofList (Text.rejoined following)

/-- Whether the scanners of a block, which do not know strings, come through the pairs: its brace is
the last one, and each value ends at its semicolon. -/
structure ReadsThrough (pairs : List (String × String)) : Prop where
  closes : untilClosed 1 none (inner pairs ++ ['}']) = some (inner pairs, [])
  values : ∀ pair ∈ pairs, splitDeclarations 0 (pair.2.toList ++ [';']) = [pair.2.toList, []]

instance (pairs : List (String × String)) : Decidable (ReadsThrough pairs) :=
  decidable_of_iff
    (untilClosed 1 none (inner pairs ++ ['}']) = some (inner pairs, []) ∧
      ∀ pair ∈ pairs, splitDeclarations 0 (pair.2.toList ++ [';']) = [pair.2.toList, []])
    ⟨fun ⟨closes, values⟩ => ⟨closes, values⟩, fun ⟨closes, values⟩ => ⟨closes, values⟩⟩

/-- A text in which the scanners of a block find nothing, whether or not it stands in a string. -/
structure Harmless (text : List Char) : Prop where
  level : ∀ c ∈ text, c ∉ structural
  unmarked : Unmarked text

section Closing

theorem prepend_prepend (first second : List Char) (found : Option (List Char × List Char)) :
    prepend first (prepend second found) = prepend (first ++ second) found := by
  cases found <;> simp [prepend]

theorem prepend_nil (found : Option (List Char × List Char)) : prepend [] found = found := by
  cases found <;> simp [prepend]

theorem prepend_eq_some {start body after : List Char} {found : Option (List Char × List Char)} :
    prepend start found = some (start ++ body, after) ↔ found = some (body, after) := by
  cases found <;> simp [prepend, Prod.ext_iff]

-- Where a block ends does not depend on what follows it.
theorem untilClosed_behind {depth : Nat} {comment : Option Bool} {body after : List Char}
    (closed : untilClosed depth comment (body ++ '}' :: after) = some (body, after))
    (behind : List Char) :
    untilClosed depth comment (body ++ '}' :: behind) = some (body, behind) := by
  have step : ∀ {start rest : List Char} {depth : Nat} {comment : Option Bool},
      (untilClosed depth comment (rest ++ '}' :: after) = some (rest, after) →
        untilClosed depth comment (rest ++ '}' :: behind) = some (rest, behind)) →
      prepend start (untilClosed depth comment (rest ++ '}' :: after)) =
        some (start ++ rest, after) →
      prepend start (untilClosed depth comment (rest ++ '}' :: behind)) =
        some (start ++ rest, behind) :=
    fun ih closed => prepend_eq_some.2 (ih (prepend_eq_some.1 closed))
  fun_induction dropMarked comment body generalizing depth with
  | case1 comment =>
    -- The brace closes the block, or it would be the first character of the body.
    have opened : ∀ found, prepend ['}'] found ≠ some ([], after) := fun found same => by
      obtain ⟨_, _, impossible⟩ := eq_of_prepend same
      cases impossible
    cases comment with
    | none =>
      by_cases outermost : depth ≤ 1
      · simp [untilClosed, outermost]
      · exact absurd closed (by simp [untilClosed, outermost, opened])
    | some afterStar => exact absurd closed (by simp [untilClosed, opened])
  | case2 rest ih => exact step ih closed
  | case3 afterStar c rest ih =>
    rw [List.cons_append, untilClosed] at closed ⊢
    exact step ih closed
  | case4 c rest plain ih =>
    have code : ∀ text, ¬ commentMark <+: c :: (rest ++ '}' :: text) := fun text =>
      no_comment_append (no_comment_of_plain plain) (by simp)
    rw [List.cons_append, untilClosed_cons (code _)] at closed ⊢
    split at closed
    · cases closed
    · rename_i inside
      rw [if_neg inside]
      exact step ih closed

theorem untilClosed_other {depth : Nat} {c : Char} {rest : List Char} (opens : c ≠ '{')
    (closes : c ≠ '}') (code : ¬ commentMark <+: c :: rest) :
    untilClosed depth none (c :: rest) = prepend [c] (untilClosed depth none rest) := by
  rw [untilClosed_cons code, if_neg (by simp [closes]), bracesBehind, if_neg opens, if_neg closes]

-- A character that neither opens nor closes a block nor starts a comment.
theorem untilClosed_sign {depth : Nat} {c : Char} {rest : List Char} (sign : c ∉ ['{', '}', '/']) :
    untilClosed depth none (c :: rest) = prepend [c] (untilClosed depth none rest) := by
  obtain ⟨opens, closes, slash⟩ : c ≠ '{' ∧ c ≠ '}' ∧ c ≠ '/' := by simpa using sign
  exact untilClosed_other opens closes (by simp [comment_starts_iff, slash])

theorem not_brace_of_level {c : Char} (level : c ∉ structural) : c ≠ '{' ∧ c ≠ '}' := by
  simp [structural] at level
  exact ⟨level.2.1, level.2.2.1⟩

theorem untilClosed_harmless {depth : Nat} {text rest : List Char} (harmless : Harmless text)
    (other : rest.head? ≠ some '*') :
    untilClosed depth none (text ++ rest) = prepend text (untilClosed depth none rest) := by
  obtain ⟨level, unmarked⟩ := harmless
  induction text with
  | nil => exact (prepend_nil _).symm
  | cons c text ih =>
    obtain ⟨code, below⟩ := unmarked_cons.1 unmarked
    obtain ⟨first, level⟩ := List.forall_mem_cons.1 level
    obtain ⟨opens, closes⟩ := not_brace_of_level first
    rw [List.cons_append, untilClosed_other opens closes (no_comment_append code other),
      ih level below, prepend_prepend, List.singleton_append]

-- The search for the closing brace comes through a value, at any depth that its own braces leave.
theorem untilClosed_value {nested : Bool} {value : List Char}
    (valued : IsValue Harmless nested value) {depth : Nat} (inside : 0 < depth) {rest : List Char}
    (other : rest.head? ≠ some '*') :
    untilClosed depth none (value ++ rest) = prepend value (untilClosed depth none rest) := by
  induction valued generalizing depth rest with
  | nil => exact (prepend_nil _).symm
  | plain code _ level _ ih =>
    obtain ⟨opens, closes⟩ := not_brace_of_level level
    rw [List.cons_append, untilClosed_other opens closes (no_comment_append code other),
      ih inside other, prepend_prepend, List.singleton_append]
  | semicolon _ ih =>
    rw [List.cons_append, untilClosed_sign (by decide), ih inside other, prepend_prepend,
      List.singleton_append]
  | @string _ mark text value quote _ allows _ ih =>
    have star : mark ≠ '*' := by rintro rfl; exact absurd quote (by decide)
    have sign : mark ∉ ['{', '}', '/'] := by
      rcases eq_of_quote quote with rfl | rfl <;> decide
    calc untilClosed depth none (mark :: (text ++ mark :: value) ++ rest)
      _ = untilClosed depth none (mark :: (text ++ mark :: (value ++ rest))) := by simp
      _ = prepend (mark :: (text ++ mark :: value)) (untilClosed depth none rest) := by
        rw [untilClosed_sign sign, untilClosed_harmless allows (by simp [star]),
          untilClosed_sign sign, ih inside other]
        simp [prepend_prepend]
  | @brackets _ opens closes within value encloses _ _ ihWithin ih =>
    have flat : ∀ depth, 0 < depth → bracesBehind (bracesBehind depth opens) closes = depth ∧
        ¬ (opens = '}' ∧ depth ≤ 1) ∧ ¬ (closes = '}' ∧ bracesBehind depth opens ≤ 1) ∧
        0 < bracesBehind depth opens := by
      intro depth inside
      cases encloses <;> simp [bracesBehind] <;> omega
    have code : ∀ text, ¬ commentMark <+: opens :: text ∧ ¬ commentMark <+: closes :: text := by
      cases encloses <;> simp [comment_starts_iff]
    have star : closes ≠ '*' := by cases encloses <;> decide
    obtain ⟨back, first, last, deeper⟩ := flat depth inside
    calc untilClosed depth none (opens :: (within ++ closes :: value) ++ rest)
      _ = untilClosed depth none (opens :: (within ++ closes :: (value ++ rest))) := by simp
      _ = prepend (opens :: (within ++ closes :: value)) (untilClosed depth none rest) := by
        rw [untilClosed_cons (code _).1, if_neg first, ihWithin deeper (by simp [star]),
          untilClosed_cons (code _).2, if_neg last, back, ih inside other]
        simp [prepend_prepend]

end Closing

section Splitting

theorem attach_attach (first second : List Char) (pieces : List (List Char)) :
    attach first (attach second pieces) = attach (first ++ second) pieces := by
  cases pieces <;> simp [attach]

theorem splitDeclarations_inside {depth : Nat} {c : Char} {rest : List Char}
    (inside : ¬ (c = ';' ∧ depth = 0)) :
    splitDeclarations depth (c :: rest) = attach [c] (splitDeclarations (nesting depth c) rest) := by
  obtain ⟨piece, pieces, split, -⟩ := exists_splitDeclarations (nesting depth c) rest
  rw [splitDeclarations_cons inside split, split]
  rfl

theorem splitDeclarations_level {depth : Nat} {text : List Char}
    (level : ∀ c ∈ text, c ∉ structural) (rest : List Char) :
    splitDeclarations depth (text ++ rest) = attach text (splitDeclarations depth rest) := by
  induction text with
  | nil =>
    obtain ⟨piece, pieces, split, -⟩ := exists_splitDeclarations depth rest
    simp [split, attach]
  | cons c text ih =>
    obtain ⟨first, below⟩ := List.forall_mem_cons.1 level
    have plain : c ≠ ';' ∧ nesting depth c = depth := by
      simp [structural] at first
      simp [nesting, first]
    rw [List.cons_append, splitDeclarations_inside (by simp [plain.1]), plain.2, ih below,
      attach_attach, List.singleton_append]

theorem splitDeclarations_value {nested : Bool} {value : List Char}
    (valued : IsValue Harmless nested value) {depth : Nat} (inside : nested = true → 0 < depth)
    (rest : List Char) :
    splitDeclarations depth (value ++ rest) = attach value (splitDeclarations depth rest) := by
  induction valued generalizing depth rest with
  | nil => exact splitDeclarations_level (by simp) rest
  | @plain _ c value _ _ level _ ih =>
    have first : ∀ d ∈ [c], d ∉ structural := by simpa using level
    calc splitDeclarations depth ([c] ++ (value ++ rest))
      _ = attach (c :: value) (splitDeclarations depth rest) := by
        rw [splitDeclarations_level first, ih inside, attach_attach, List.singleton_append]
  | semicolon _ ih =>
    have deeper := inside rfl
    rw [List.cons_append, splitDeclarations_inside (by omega)]
    simp [nesting, ih inside, attach_attach]
  | @string _ mark text value quote _ allows _ ih =>
    have level : ∀ c ∈ mark :: (text ++ [mark]), c ∉ structural := by
      simpa [or_imp, forall_and, not_structural_of_quote quote] using allows.level
    calc splitDeclarations depth (mark :: (text ++ mark :: value) ++ rest)
      _ = splitDeclarations depth (mark :: (text ++ [mark]) ++ (value ++ rest)) := by simp
      _ = attach (mark :: (text ++ mark :: value)) (splitDeclarations depth rest) := by
        rw [splitDeclarations_level level, ih inside, attach_attach]
        simp
  | @brackets _ opens closes within value encloses _ _ ihWithin ih =>
    have flat : nesting depth opens = depth + 1 ∧ nesting (depth + 1) closes = depth ∧
        opens ≠ ';' ∧ closes ≠ ';' := by
      cases encloses <;> simp [nesting]
    obtain ⟨deeper, back, first, last⟩ := flat
    calc splitDeclarations depth (opens :: (within ++ closes :: value) ++ rest)
      _ = splitDeclarations depth (opens :: (within ++ closes :: (value ++ rest))) := by simp
      _ = attach (opens :: (within ++ closes :: value)) (splitDeclarations depth rest) := by
        rw [splitDeclarations_inside (by simp [first]), deeper, ihWithin (by simp),
          splitDeclarations_inside (by simp [last]), back, ih inside]
        simp [attach_attach]

-- What follows the semicolon behind a piece does not matter for it.
theorem splitDeclarations_behind {depth : Nat} {value rest : List Char}
    {pieces : List (List Char)}
    (split : splitDeclarations depth (value ++ ';' :: rest) = value :: pieces)
    (behind : List Char) :
    splitDeclarations depth (value ++ ';' :: behind) = value :: splitDeclarations 0 behind := by
  induction value generalizing depth with
  | nil =>
    by_cases outermost : depth = 0
    · simp [splitDeclarations, outermost]
    · obtain ⟨piece, others, found, -⟩ := exists_splitDeclarations (nesting depth ';') rest
      rw [List.nil_append, splitDeclarations_cons (by simp [outermost]) found] at split
      cases split
  | cons c value ih =>
    by_cases separates : c = ';' ∧ depth = 0
    · simp [splitDeclarations, separates] at split
    · obtain ⟨piece, others, found, -⟩ :=
        exists_splitDeclarations (nesting depth c) (value ++ ';' :: rest)
      rw [List.cons_append, splitDeclarations_cons separates found] at split
      obtain ⟨⟨-, rfl⟩, rfl⟩ : (c = c ∧ piece = value) ∧ others = pieces := by simpa using split
      exact splitDeclarations_cons separates (ih found)

end Splitting

section Entries

theorem IsName.harmless {name : List Char} (named : IsName name) : Harmless name :=
  ⟨fun c member => (named.level c member).2.2, named.unmarked⟩

theorem level_lead {name : String} (named : IsName name.toList) :
    ∀ c ∈ lead name, c ∉ structural := by
  have ends : ' ' ∉ structural ∧ ':' ∉ structural := by decide
  simpa [lead, or_imp, forall_and, ends] using named.harmless.level

-- A value starts with none of the characters that end it.
theorem exists_value_cons {allowed : List Char → Prop} {pair : String × String}
    (declared : IsDeclaration allowed pair) :
    ∃ c rest, pair.2.toList = c :: rest ∧ isBlank c = false ∧ c ≠ ';' ∧ c ≠ '}' := by
  obtain ⟨-, valued, filled, trimmed⟩ := declared
  generalize pair.2.toList = value at *
  cases valued with
  | nil => contradiction
  | plain _ _ level _ =>
    exact ⟨_, _, rfl, trimmed.first _ rfl, by rintro rfl; exact level (by decide),
      (not_brace_of_level level).2⟩
  | string quote =>
    have level := not_structural_of_quote quote
    exact ⟨_, _, rfl, trimmed.first _ rfl, by rintro rfl; exact level (by decide),
      (not_brace_of_level level).2⟩
  | brackets encloses =>
    exact ⟨_, _, rfl, trimmed.first _ rfl, by cases encloses <;> decide,
      by cases encloses <;> decide⟩

theorem allBlank_space : Text.AllBlank [' '] := by simp [Text.AllBlank, isBlank, blankRanges]

theorem trim_lead_append {name : String} (named : IsName name.toList) {c : Char}
    {rest : List Char} (dark : isBlank c = false) :
    Text.trim (lead name ++ c :: rest) =
      name.toList ++ ':' :: ' ' :: Text.trim (c :: rest) := by
  obtain ⟨start, name_eq⟩ := named.dashes
  have first : ∀ c ∈ (name.toList ++ [':', ' ']).head?, isBlank c = false := by
    simp [← name_eq, isBlank, blankRanges]
  calc Text.trim (lead name ++ c :: rest)
    _ = Text.trim ([' '] ++ (name.toList ++ [':', ' '] ++ c :: rest)) := by simp [lead]
    _ = name.toList ++ ':' :: ' ' :: Text.trim (c :: rest) := by
      rw [Text.trim_blank_append allBlank_space, Text.trim_append_dark first dark]
      simp

theorem declaration?_lead {name : String} (named : IsName name.toList) {c : Char}
    {rest : List Char} (dark : isBlank c = false) :
    declaration? (lead name ++ c :: rest) =
      some (name, String.ofList (Text.trim (c :: rest))) := by
  obtain ⟨start, name_eq⟩ := named.dashes
  have code : ¬ commentMark <+: name.toList ++ ':' :: ' ' :: Text.trim (c :: rest) := by
    simp [← name_eq, comment_starts_iff]
  have absent : ':' ∉ name.toList := fun member => (named.level ':' member).2.1 rfl
  have bare : Text.trim name.toList = name.toList :=
    Text.trim_eq_self ⟨fun c first => named.dark c (List.mem_of_mem_head? first),
      fun c last => named.dark c (List.mem_of_mem_getLast? last)⟩
  have value : Text.trim ([' '] ++ Text.trim (c :: rest)) = Text.trim (c :: rest) := by
    rw [Text.trim_blank_append allBlank_space, Text.trim_eq_self (Text.trimmed_trim _)]
  have filled : Text.trim (c :: rest) ≠ [] := by
    obtain ⟨kept, trimmed⟩ := Text.exists_trim_cons dark rest
    simp [trimmed]
  rw [declaration?, trim_lead_append named dark, dropLeadingComments_of_code code,
    Text.splitOnce_append absent]
  rw [List.singleton_append] at value
  simp [bare, value, filled, List.isPrefixOf_iff_prefix.2 named.dashes]

theorem declarations_entries {allowed : List Char → Prop} {pairs : List (String × String)}
    (declared : ∀ pair ∈ pairs, IsDeclaration allowed pair)
    (values : ∀ pair ∈ pairs, splitDeclarations 0 (pair.2.toList ++ [';']) = [pair.2.toList, []])
    (rest : List Char) :
    (splitDeclarations 0 (pairs.flatMap entry ++ rest)).filterMap declaration? =
      pairs ++ (splitDeclarations 0 rest).filterMap declaration? := by
  induction pairs with
  | nil => rfl
  | cons pair pairs ih =>
    obtain ⟨first, declared⟩ := List.forall_mem_cons.1 declared
    obtain ⟨scanned, values⟩ := List.forall_mem_cons.1 values
    obtain ⟨c, value, value_eq, dark, -⟩ := exists_value_cons first
    have cut : splitDeclarations 0 (entry pair ++ (pairs.flatMap entry ++ rest)) =
        (lead pair.1 ++ pair.2.toList) ::
          splitDeclarations 0 (pairs.flatMap entry ++ rest) := by
      rw [entry, List.append_assoc, splitDeclarations_level (level_lead first.name),
        List.append_assoc, List.singleton_append, splitDeclarations_behind scanned]
      rfl
    have declares : declaration? (lead pair.1 ++ pair.2.toList) = some pair := by
      rw [value_eq, declaration?_lead first.name dark, ← value_eq,
        Text.trim_eq_self first.trimmed, String.ofList_toList]
    rw [List.flatMap_cons, List.append_assoc, cut, List.filterMap_cons_some declares,
      ih declared values, List.cons_append]

theorem exists_append_of_absent {c : Char} {start rest body after : List Char}
    (whole : body ++ c :: after = start ++ rest) (absent : c ∉ start) :
    ∃ tail, body = start ++ tail ∧ tail ++ c :: after = rest := by
  obtain ⟨middle, rfl, same⟩ | ⟨middle, rfl, same⟩ := List.append_eq_append_iff.1 whole
  · cases middle with
    | nil => exact ⟨[], by simp, by simpa using same⟩
    | cons d middle =>
      obtain ⟨rfl, -⟩ := List.cons.inj same
      simp at absent
  · exact ⟨middle, rfl, same.symm⟩

-- A block goes on into the first value, because it can end only in front of a brace.
theorem exists_of_lead {allowed : List Char → Prop} {pair : String × String}
    {body after rest : List Char} (declared : IsDeclaration allowed pair)
    (whole : body ++ '}' :: after = entry pair ++ rest) :
    ∃ c value tail, pair.2.toList = c :: value ∧ isBlank c = false ∧ c ≠ ';' ∧
      body = lead pair.1 ++ c :: tail ∧ tail ++ '}' :: after = value ++ ';' :: rest := by
  obtain ⟨c, value, value_eq, dark, semicolon, brace⟩ := exists_value_cons declared
  have absent : '}' ∉ lead pair.1 ++ [c] := by
    have outside : '}' ∉ lead pair.1 := fun member =>
      level_lead declared.name _ member (by decide)
    simp [outside, brace.symm]
  have whole_value : body ++ '}' :: after = (lead pair.1 ++ [c]) ++ (value ++ ';' :: rest) := by
    simp [whole, entry, value_eq]
  obtain ⟨tail, body_eq, tail_eq⟩ := exists_append_of_absent whole_value absent
  exact ⟨c, value, tail, value_eq, dark, semicolon, by simp [body_eq], tail_eq⟩

-- Behind a value stands its semicolon, so that trimming took no blank from it.
theorem eq_of_trim {c : Char} {piece value behind rest : List Char} (dark : isBlank c = false)
    (taken : Text.trim (c :: piece) = c :: value)
    (whole : piece ++ behind = value ++ ';' :: rest) : piece = value := by
  obtain ⟨blanks, blank, joined⟩ := Text.exists_trim_dark dark piece
  obtain rfl : piece = value ++ blanks := by simpa [taken] using joined
  cases blanks with
  | nil => simp
  | cons d blanks =>
    obtain ⟨rfl, -⟩ : d = ';' ∧ _ := by simpa using whole
    exact absurd (blank ';' List.mem_cons_self) (by decide)

-- A block from which the pairs come first has taken up the first of them, with its semicolon.
theorem exists_of_declares {allowed : List Char → Prop} {pair : String × String}
    {pairs more : List (String × String)} {body after rest : List Char}
    (declared : IsDeclaration allowed pair) (whole : body ++ '}' :: after = entry pair ++ rest)
    (found : (splitDeclarations 0 body).filterMap declaration? ++ more = pair :: pairs) :
    ∃ tail, body = entry pair ++ tail ∧ tail ++ '}' :: after = rest ∧
      splitDeclarations 0 (pair.2.toList ++ [';']) = [pair.2.toList, []] ∧
      (splitDeclarations 0 tail).filterMap declaration? ++ more = pairs := by
  obtain ⟨c, value, tail, value_eq, dark, semicolon, rfl, tail_eq⟩ := exists_of_lead declared whole
  obtain ⟨piece, pieces, split, behind, rfl⟩ := exists_splitDeclarations (nesting 0 c) tail
  have outside : ¬ (c = ';' ∧ 0 = 0) := by simp [semicolon]
  rw [splitDeclarations_level (level_lead declared.name), splitDeclarations_cons outside split,
    attach, List.filterMap_cons_some (declaration?_lead declared.name dark)] at found
  obtain ⟨pair_eq, found⟩ := List.cons.inj found
  have taken : Text.trim (c :: piece) = c :: value := by
    rw [← value_eq, ← congrArg Prod.snd pair_eq, String.toList_ofList]
  rw [List.append_assoc] at tail_eq
  obtain rfl := eq_of_trim dark taken tail_eq
  obtain ⟨tail, rfl, after_eq⟩ : ∃ tail, behind = [';'] ++ tail ∧ tail ++ '}' :: after = rest :=
    exists_append_of_absent (List.append_cancel_left tail_eq) (by decide)
  have cut : splitDeclarations 0 (pair.2.toList ++ ';' :: tail) = pair.2.toList :: pieces := by
    rw [value_eq]
    exact splitDeclarations_cons outside split
  have pieces_eq := splitDeclarations_behind cut tail
  rw [cut] at pieces_eq
  refine ⟨tail, by simp [entry, value_eq], after_eq, splitDeclarations_behind cut [], ?_⟩
  rw [← (List.cons.inj pieces_eq).2]
  exact found

theorem exists_of_declarations {allowed : List Char → Prop} {pairs more : List (String × String)}
    {body after rest : List Char} (declared : ∀ pair ∈ pairs, IsDeclaration allowed pair)
    (whole : body ++ '}' :: after = pairs.flatMap entry ++ rest)
    (found : (splitDeclarations 0 body).filterMap declaration? ++ more = pairs) :
    (∃ tail, body = pairs.flatMap entry ++ tail ∧ tail ++ '}' :: after = rest) ∧
      ∀ pair ∈ pairs, splitDeclarations 0 (pair.2.toList ++ [';']) = [pair.2.toList, []] := by
  induction pairs generalizing body with
  | nil => exact ⟨⟨body, rfl, whole⟩, by simp⟩
  | cons pair pairs ih =>
    obtain ⟨first, declared⟩ := List.forall_mem_cons.1 declared
    rw [List.flatMap_cons, List.append_assoc] at whole
    obtain ⟨behind, rfl, behind_eq, scanned, found⟩ := exists_of_declares first whole found
    obtain ⟨⟨tail, rfl, tail_eq⟩, values⟩ := ih declared behind_eq found
    exact ⟨⟨tail, by simp, tail_eq⟩, List.forall_mem_cons.2 ⟨scanned, values⟩⟩

end Entries

section Parsing

variable {path : Path} {pairs : List (String × String)} {following : List Char}

def opening : List Char := themeMarker ++ [' ']

theorem written_toList : (written pairs following).toList =
    opening ++ '{' :: (inner pairs ++ '}' :: following) := by
  simp [written, opening]

theorem blockAt_opening (text : List Char) :
    blockAt? (opening ++ '{' :: text) =
      (untilClosed 1 none text).map fun (body, after) => (⟨opening, body⟩, after) := by
  rw [blockAt?, Text.splitOnce_append (by decide)]

theorem declarations_written {body after : List Char}
    (closed : untilClosed 1 none (inner pairs ++ '}' :: following) = some (body, after)) :
    (parse path (written pairs following)).declarations =
      (splitDeclarations 0 body).filterMap declaration? ++
        declarationsFrom (Place.top.walk (Block.text ⟨opening, body⟩)) after := by
  have found := blockAt_opening (inner pairs ++ '}' :: following)
  rw [closed, Option.map_some] at found
  change declarationsFrom Place.top (written pairs following).toList = _
  rw [written_toList, declarationsFrom_block rfl found, Block.declarations]

theorem declarationsFrom_plain {text : List Char} (plain : Plain text) (place : Place) :
    declarationsFrom place text = [] := by
  simp [declarationsFrom, cutFrom_plain plain]

theorem body_written {body after : List Char}
    (closed : untilClosed 1 none (inner pairs ++ '}' :: following) = some (body, after))
    (plain : Plain after) :
    (parse path (written pairs following)).body =
      String.ofList (Text.rejoined (uncommented after)) := by
  have found := blockAt_opening (inner pairs ++ '}' :: following)
  rw [closed, Option.map_some] at found
  have cut : (cutBlocks (written pairs following).toList).outside = after := by
    rw [written_toList, cutBlocks, cutFrom_block rfl found, cutFrom_plain plain]
    simp [Cutting.outside]
  have plain' : Plain (uncommented after) := fun member =>
    plain ((dropComments_sublist .code after).subset member)
  simp [parse, readLines, cut, bodyOf_plain plain']

-- A block that is not closed declares nothing.
theorem declarations_unclosed
    (unclosed : untilClosed 1 none (inner pairs ++ '}' :: following) = none) :
    (parse path (written pairs following)).declarations = [] := by
  have nothing := blockAt_opening (inner pairs ++ '}' :: following)
  rw [unclosed, Option.map_none] at nothing
  change declarationsFrom Place.top (written pairs following).toList = []
  rw [written_toList]
  exact declarationsFrom_unclosed rfl nothing

theorem roundTrips_of_readsThrough {allowed : List Char → Prop}
    (declared : ∀ pair ∈ pairs, IsDeclaration allowed pair)
    (settled : uncommented following = following) (plain : Plain following)
    (reads : ReadsThrough pairs) : RoundTrips path pairs following := by
  have closed := untilClosed_behind reads.closes following
  constructor
  · rw [declarations_written closed, declarationsFrom_plain plain, inner,
      declarations_entries declared reads.values]
    have nothing : (splitDeclarations 0 [' ']).filterMap declaration? = [] := by decide +kernel
    rw [nothing, List.append_nil, List.append_nil]
  · rw [body_written closed plain, settled]

-- What is taken from the following text is missing in the body: a brace at least.
theorem rejoined_ne_of_taken {taken after : List Char}
    (following_eq : following = taken ++ '}' :: after) :
    Text.rejoined (uncommented after) ≠ Text.rejoined following := by
  intro same
  have counts := congrArg (List.count '}') same
  rw [Text.count_rejoined (by decide), Text.count_rejoined (by decide), following_eq] at counts
  have fewer := (dropComments_sublist .code after).count_le '}'
  simp [uncommented] at counts
  omega

theorem readsThrough_of_roundTrips {allowed : List Char → Prop}
    (declared : ∀ pair ∈ pairs, IsDeclaration allowed pair) (plain : Plain following)
    (back : RoundTrips path pairs following) : ReadsThrough pairs := by
  obtain ⟨declarations, body_eq⟩ := back
  cases closed : untilClosed 1 none (inner pairs ++ '}' :: following) with
  | none =>
    rw [declarations_unclosed closed] at declarations
    subst declarations
    simp [inner, untilClosed, prepend] at closed
  | some parts =>
    obtain ⟨body, after⟩ := parts
    have whole : body ++ '}' :: after = pairs.flatMap entry ++ ' ' :: '}' :: following := by
      rw [← eq_of_untilClosed closed, inner, List.append_assoc, List.singleton_append]
    rw [declarations_written closed] at declarations
    obtain ⟨⟨tail, rfl, tail_eq⟩, values⟩ := exists_of_declarations declared whole declarations
    obtain ⟨taken, rfl, taken_eq⟩ : ∃ taken, tail = [' '] ++ taken ∧
        taken ++ '}' :: after = '}' :: following := exists_append_of_absent tail_eq (by simp)
    cases taken with
    | nil =>
      obtain rfl : after = following := by simpa using taken_eq
      refine ⟨?_, values⟩
      rw [List.append_nil] at closed
      exact untilClosed_behind closed []
    | cons c taken =>
      obtain ⟨rfl, following_eq⟩ := List.cons.inj taken_eq
      have plain_after : Plain after := fun member => plain (by simp [← following_eq, member])
      rw [body_written closed plain_after, String.ofList_inj] at body_eq
      exact absurd body_eq (rejoined_ne_of_taken following_eq.symm)

theorem untilClosed_entries (harmless : ∀ pair ∈ pairs, IsDeclaration Harmless pair)
    (rest : List Char) :
    untilClosed 1 none (pairs.flatMap entry ++ rest) =
      prepend (pairs.flatMap entry) (untilClosed 1 none rest) := by
  induction pairs with
  | nil => exact (prepend_nil _).symm
  | cons pair pairs ih =>
    obtain ⟨first, harmless⟩ := List.forall_mem_cons.1 harmless
    calc untilClosed 1 none ((pair :: pairs).flatMap entry ++ rest)
      _ = untilClosed 1 none (' ' :: (pair.1.toList ++ ':' :: ' ' ::
          (pair.2.toList ++ ';' :: (pairs.flatMap entry ++ rest)))) := by simp [entry, lead]
      _ = prepend (entry pair) (untilClosed 1 none (pairs.flatMap entry ++ rest)) := by
        rw [untilClosed_sign (by decide), untilClosed_harmless first.name.harmless (by simp),
          untilClosed_sign (by decide), untilClosed_sign (by decide),
          untilClosed_value first.value (by simp) (by simp), untilClosed_sign (by decide)]
        simp [prepend_prepend, entry, lead]
      _ = prepend ((pair :: pairs).flatMap entry) (untilClosed 1 none rest) := by
        rw [ih harmless, prepend_prepend, List.flatMap_cons]

theorem readsThrough_of_harmless (harmless : ∀ pair ∈ pairs, IsDeclaration Harmless pair) :
    ReadsThrough pairs where
  closes := by
    rw [inner, List.append_assoc, untilClosed_entries harmless]
    simp [untilClosed, prepend]
  values pair member := by
    rw [splitDeclarations_value (harmless pair member).value (by simp)]
    simp [splitDeclarations, attach]

end Parsing

/-- A theme block that declares the pairs is read back exactly if the scanners of a block, which do
not know strings, come through its values. They do where no string holds a semicolon, a bracket or
the start of a comment. -/
theorem roundTrips_iff (path : Path) (pairs : List (String × String)) (following : List Char)
    (declared : ∀ pair ∈ pairs, IsDeclaration (fun _ => True) pair)
    (settled : uncommented following = following) (plain : Plain following) :
    (RoundTrips path pairs following ↔ ReadsThrough pairs) ∧
      ((∀ pair ∈ pairs, IsDeclaration Harmless pair) → RoundTrips path pairs following) := by
  have reads : RoundTrips path pairs following ↔ ReadsThrough pairs :=
    ⟨readsThrough_of_roundTrips declared plain,
      roundTrips_of_readsThrough declared settled plain⟩
  exact ⟨reads, fun harmless => reads.2 (readsThrough_of_harmless harmless)⟩

def stringPair (name : String) (text : List Char) : String × String :=
  (name, String.ofList ('"' :: (text ++ ['"'])))

theorem isDeclaration_stringPair {allowed : List Char → Prop} {name : String} {text : List Char}
    (named : IsName name.toList) (within : ∀ c ∈ text, c ≠ '"' ∧ c ≠ '\\' ∧ c ≠ '\n')
    (allows : allowed text) : IsDeclaration allowed (stringPair name text) where
  name := named
  value := by
    rw [stringPair, String.toList_ofList]
    exact .string rfl within allows .nil
  filled := by simp [stringPair]
  trimmed := by
    have ends : ('"' :: (text ++ ['"'])).getLast? = some '"' := by
      rw [← List.cons_append, List.getLast?_concat]
    constructor <;> simp [stringPair, ends, isBlank, blankRanges]

theorem isName_a : IsName "--a".toList where
  dashes := by decide
  dark := by simp [isBlank, blankRanges]
  level := by simp [isQuoteMark, structural]
  unmarked := by decide

def bracketed : String × String := ("--a", String.ofList ['f', '(', '{', ';', '}', ')'])

theorem isDeclaration_bracketed (allowed : List Char → Prop) :
    IsDeclaration allowed bracketed where
  name := isName_a
  value := by
    have braces : IsValue allowed true ['{', ';', '}'] := .brackets .braces (.semicolon .nil) .nil
    have call : IsValue allowed false ['(', '{', ';', '}', ')'] :=
      @IsValue.brackets _ _ _ _ ['{', ';', '}'] [] .parentheses braces .nil
    rw [bracketed, String.toList_ofList]
    exact .plain (by decide) (by decide) (by decide) call
  filled := by decide
  trimmed := by constructor <;> simp [bracketed, isBlank, blankRanges]

-- Brackets around a semicolon are read back, and a string with nothing in it that the scanners look
-- for. A string with a semicolon, a brace, a parenthesis or the start of a comment is not.
theorem roundTrips_strings :
    RoundTrips ⟨"/r/a.css"⟩ [stringPair "--a" ['x', '\''], bracketed]
        ['\n', '.', 'p', ' ', '\x7b', '\x7d'] ∧
      ∀ text ∈ [[';'], ['}'], ['('], ['/', '*']],
        (∀ pair ∈ [stringPair "--a" text], IsDeclaration (fun _ => True) pair) ∧
          ¬ RoundTrips ⟨"/r/a.css"⟩ [stringPair "--a" text] [] := by
  have harmless : Harmless ['x', '\''] := ⟨by simp [structural], by decide⟩
  have declared : ∀ {allowed : List Char → Prop}, allowed ['x', '\''] →
      ∀ pair ∈ [stringPair "--a" ['x', '\''], bracketed], IsDeclaration allowed pair := by
    intro allowed allows
    simpa [isDeclaration_bracketed] using
      isDeclaration_stringPair isName_a (by simp) allows
  have within : ∀ text ∈ [[';'], ['}'], ['('], ['/', '*']],
      ∀ c ∈ text, c ≠ '"' ∧ c ≠ '\\' ∧ c ≠ '\n' := by simp
  have broken : ∀ text ∈ [[';'], ['}'], ['('], ['/', '*']],
      ¬ ReadsThrough [stringPair "--a" text] := by decide
  refine ⟨(roundTrips_iff _ _ _ (declared trivial) (by decide) (by decide)).2 (declared harmless),
    fun text listed => ?_⟩
  have quoted : ∀ pair ∈ [stringPair "--a" text], IsDeclaration (fun _ => True) pair := by
    simpa using isDeclaration_stringPair isName_a (within text listed) trivial
  exact ⟨quoted, fun back => broken text listed
    ((roundTrips_iff _ _ _ quoted (by decide) (by decide)).1.1 back)⟩

end UtilityCss.Stylesheet
