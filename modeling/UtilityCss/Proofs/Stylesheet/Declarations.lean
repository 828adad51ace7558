import Mathlib.Data.List.Infix
import UtilityCss.Proofs.Text.Trim
import UtilityCss.Stylesheet.ThemeBlock

set_option autoImplicit false

namespace UtilityCss.Stylesheet

def commentMark : List Char := ['/', '*']

def Unmarked (text : List Char) : Prop := ¬ commentMark <:+: text

instance (text : List Char) : Decidable (Unmarked text) := inferInstanceAs (Decidable (¬ _))

def dropMarked : Option Bool → List Char → List Char
  | _, [] => []
  | none, '/' :: '*' :: rest => dropMarked (some false) rest
  | some afterStar, c :: rest =>
    dropMarked (if afterStar && c = '/' then none else some (c = '*')) rest
  | none, c :: rest => c :: dropMarked none rest

theorem comment_starts_iff {c : Char} {rest : List Char} :
    commentMark <+: c :: rest ↔ c = '/' ∧ rest.head? = some '*' := by
  cases rest <;> simp [commentMark, List.cons_prefix_cons, eq_comm]

theorem no_comment_of_plain {c : Char} {rest : List Char}
    (plain : ∀ rest', c = '/' → rest = '*' :: rest' → False) : ¬ commentMark <+: c :: rest := by
  rw [comment_starts_iff, List.head?_eq_some_iff]
  rintro ⟨slash, rest', rest_eq⟩
  exact plain rest' slash rest_eq

theorem unmarked_cons {c : Char} {rest : List Char} :
    Unmarked (c :: rest) ↔ ¬ commentMark <+: c :: rest ∧ Unmarked rest := by
  simp [Unmarked, List.infix_cons_iff, not_or]

theorem dropMarked_cons {c : Char} {rest : List Char} (code : ¬ commentMark <+: c :: rest) :
    dropMarked none (c :: rest) = c :: dropMarked none rest := by
  rw [comment_starts_iff] at code
  rw [dropMarked.eq_4]
  rintro rest' rfl rfl
  exact code ⟨rfl, rfl⟩

theorem dropMarked_of_unmarked {text : List Char} (unmarked : Unmarked text) :
    dropMarked none text = text := by
  induction text with
  | nil => simp [dropMarked]
  | cons c rest ih =>
    obtain ⟨code, below⟩ := unmarked_cons.1 unmarked
    rw [dropMarked_cons code, ih below]

def bracesBehind (depth : Nat) (c : Char) : Nat :=
  if c = '{' then depth + 1 else if c = '}' then depth - 1 else depth

theorem untilClosed_cons {depth : Nat} {c : Char} {rest : List Char}
    (code : ¬ commentMark <+: c :: rest) :
    untilClosed depth none (c :: rest) =
      if c = '}' ∧ depth ≤ 1 then some ([], rest)
      else prepend [c] (untilClosed (bracesBehind depth c) none rest) := by
  rw [comment_starts_iff] at code
  rw [untilClosed.eq_4]
  · by_cases opens : c = '{'
    · simp [bracesBehind, opens]
    · by_cases shuts : c = '}' <;> simp [bracesBehind, opens, shuts]
  · rintro rest' rfl rfl
    exact code ⟨rfl, rfl⟩

theorem no_comment_append {c : Char} {text rest : List Char}
    (code : ¬ commentMark <+: c :: text) (other : rest.head? ≠ some '*') :
    ¬ commentMark <+: c :: (text ++ rest) := by
  rw [comment_starts_iff] at code ⊢
  cases text <;> simp_all

theorem prepend_eq_none {start : List Char} {found : Option (List Char × List Char)} :
    prepend start found = none ↔ found = none := by
  cases found <;> simp [prepend]

theorem no_comment_body {depth : Nat} {mark : Option Bool} {c : Char}
    {rest body after : List Char} (code : ¬ commentMark <+: c :: rest)
    (closed : untilClosed depth mark rest = some (body, after)) :
    ¬ commentMark <+: c :: body := by
  rw [eq_of_untilClosed closed] at code
  exact fun start => code (start.trans (List.prefix_append (c :: body) _))

-- A block closes in front of the same text without the comments of its body. The cases are those of
-- the text, so that a brace is one of the characters that stay.
theorem untilClosed_dropMarked {depth : Nat} {mark : Option Bool} {text body after : List Char}
    (closed : untilClosed depth mark text = some (body, after))
    (unmarked : Unmarked (dropMarked mark body)) (behind : List Char) :
    untilClosed depth none (dropMarked mark body ++ '}' :: behind) =
      some (dropMarked mark body, behind) := by
  fun_induction dropMarked mark text generalizing depth body with
  | case1 => simp [untilClosed] at closed
  | case2 rest ih =>
    obtain ⟨inner, found, rfl⟩ := eq_of_prepend closed
    exact ih found unmarked
  | case3 afterStar c rest ih =>
    rw [untilClosed] at closed
    obtain ⟨inner, found, rfl⟩ := eq_of_prepend closed
    rw [List.singleton_append, dropMarked] at unmarked ⊢
    exact ih found unmarked
  | case4 c rest plain ih =>
    have code := no_comment_of_plain plain
    rw [untilClosed_cons code] at closed
    split at closed
    · rename_i outermost
      cases closed
      simp [dropMarked, untilClosed, outermost.2]
    · rename_i inside
      obtain ⟨inner, found, rfl⟩ := eq_of_prepend closed
      rw [List.singleton_append, dropMarked_cons (no_comment_body code found)] at unmarked ⊢
      obtain ⟨start, below⟩ := unmarked_cons.1 unmarked
      have start := no_comment_append start (by simp : ('}' :: behind).head? ≠ some '*')
      rw [List.cons_append, untilClosed_cons start, if_neg inside, ih found below]
      rfl

-- A block that is not closed is not closed without its comments either.
theorem untilClosed_dropMarked_none {depth : Nat} {mark : Option Bool} {text : List Char}
    (unclosed : untilClosed depth mark text = none) (unmarked : Unmarked (dropMarked mark text)) :
    untilClosed depth none (dropMarked mark text) = none := by
  fun_induction dropMarked mark text generalizing depth with
  | case1 => simp [untilClosed]
  | case2 rest ih => exact ih (prepend_eq_none.1 unclosed) unmarked
  | case3 afterStar c rest ih =>
    rw [untilClosed] at unclosed
    exact ih (prepend_eq_none.1 unclosed) unmarked
  | case4 c rest plain ih =>
    rw [untilClosed_cons (no_comment_of_plain plain)] at unclosed
    obtain ⟨start, below⟩ := unmarked_cons.1 unmarked
    rw [untilClosed_cons start]
    split at unclosed
    · contradiction
    · rename_i inside
      rw [if_neg inside, ih (prepend_eq_none.1 unclosed) below]
      rfl

def staysLevel (depth : Nat) : Option (Nat × Bool) → List Char → Bool
  | _, [] => true
  | none, '/' :: '*' :: rest => staysLevel depth (some (depth, false)) rest
  | none, c :: rest => staysLevel (nesting depth c) none rest
  | some (before, afterStar), c :: rest =>
    !(c = ';' && depth = 0) &&
      if afterStar && c = '/' then depth = before && staysLevel depth none rest
      else staysLevel (nesting depth c) (some (before, c = '*')) rest

theorem splitDeclarations_cons {depth : Nat} {c : Char} {rest piece : List Char}
    {pieces : List (List Char)} (inside : ¬ (c = ';' ∧ depth = 0))
    (split : splitDeclarations (nesting depth c) rest = piece :: pieces) :
    splitDeclarations depth (c :: rest) = (c :: piece) :: pieces := by
  simp [splitDeclarations, inside, split]

theorem exists_splitDeclarations (depth : Nat) (text : List Char) :
    ∃ piece pieces, splitDeclarations depth text = piece :: pieces ∧ piece <+: text := by
  induction text generalizing depth with
  | nil => exact ⟨[], [], rfl, List.prefix_rfl⟩
  | cons c rest ih =>
    by_cases separates : c = ';' ∧ depth = 0
    · exact ⟨[], splitDeclarations depth rest, by simp [splitDeclarations, separates],
        List.nil_prefix⟩
    · obtain ⟨piece, pieces, split, start⟩ := ih (nesting depth c)
      exact ⟨c :: piece, pieces, splitDeclarations_cons separates split,
        List.cons_prefix_cons.2 ⟨rfl, start⟩⟩

def dropFromPieces (mark : Option Bool) : List (List Char) → List (List Char)
  | [] => []
  | piece :: pieces => dropMarked mark piece :: pieces.map (dropMarked none)

theorem dropFromPieces_none (pieces : List (List Char)) :
    dropFromPieces none pieces = pieces.map (dropMarked none) := by
  cases pieces <;> rfl

-- The pieces of a text without its comments are the pieces of the text, without theirs.
theorem splitDeclarations_dropMarked {depth : Nat} {mark : Option (Nat × Bool)} {text : List Char}
    (level : staysLevel depth mark text = true) :
    splitDeclarations ((mark.map Prod.fst).getD depth) (dropMarked (mark.map Prod.snd) text) =
      dropFromPieces (mark.map Prod.snd) (splitDeclarations depth text) := by
  fun_induction staysLevel depth mark text with
  | case1 depth mark => simp [dropMarked, splitDeclarations, dropFromPieces]
  | case2 depth rest ih =>
    obtain ⟨piece, pieces, split, _⟩ := exists_splitDeclarations depth rest
    have whole : splitDeclarations depth ('/' :: '*' :: rest) = ('/' :: '*' :: piece) :: pieces :=
      splitDeclarations_cons (by simp)
        (splitDeclarations_cons (by simp) (by simpa [nesting] using split))
    simpa [whole, split, dropMarked, dropFromPieces] using ih level
  | case3 depth c rest plain ih =>
    have code := no_comment_of_plain plain
    have below := ih level
    simp only [Option.map_none, Option.getD_none, dropFromPieces_none, dropMarked_cons code]
      at below ⊢
    by_cases separates : c = ';' ∧ depth = 0
    · obtain ⟨rfl, rfl⟩ := separates
      have below : splitDeclarations 0 (dropMarked none rest) =
        (splitDeclarations 0 rest).map (dropMarked none) := below
      simp [splitDeclarations, below, dropMarked]
    · obtain ⟨piece, pieces, split, start⟩ := exists_splitDeclarations (nesting depth c) rest
      have code : ¬ commentMark <+: c :: piece := fun marked =>
        code (marked.trans (List.cons_prefix_cons.2 ⟨rfl, start⟩))
      rw [split, List.map_cons] at below
      rw [splitDeclarations_cons separates below, splitDeclarations_cons separates split,
        List.map_cons, dropMarked_cons code]
  | case4 depth before afterStar c rest ended within =>
    obtain ⟨inside, below⟩ := Bool.and_eq_true_iff.1 level
    have inside : ¬ (c = ';' ∧ depth = 0) := by simpa [-not_and, not_and_or] using inside
    obtain ⟨piece, pieces, split, _⟩ := exists_splitDeclarations (nesting depth c) rest
    rw [splitDeclarations_cons inside split]
    by_cases ends : (afterStar && c = '/') = true
    · obtain ⟨rfl, outside⟩ : depth = before ∧ staysLevel depth none rest = true := by
        simpa [ends] using below
      have flat : nesting depth c = depth := by
        obtain ⟨_, rfl⟩ : afterStar = true ∧ c = '/' := by simpa using ends
        simp [nesting]
      rw [flat] at split
      simpa [split, dropMarked, dropFromPieces, ends] using ended outside
    · rw [if_neg ends] at below
      simpa [split, dropMarked, dropFromPieces, ends] using within below

theorem no_comment_of_blank {c : Char} (blank : isBlank c = true) (text : List Char) :
    ¬ commentMark <+: c :: text := by
  rw [comment_starts_iff]
  rintro ⟨rfl, -⟩
  exact absurd blank (by decide)

theorem dropMarked_blank_append {blanks : List Char} (blank : Text.AllBlank blanks)
    (text : List Char) : dropMarked none (blanks ++ text) = blanks ++ dropMarked none text := by
  induction blanks with
  | nil => rfl
  | cons c rest ih =>
    obtain ⟨first, below⟩ := List.forall_mem_cons.1 blank
    rw [List.cons_append, dropMarked_cons (no_comment_of_blank first _), ih below,
      List.cons_append]

theorem dropMarked_some_blank {blanks : List Char} (blank : Text.AllBlank blanks)
    (afterStar : Bool) : dropMarked (some afterStar) blanks = [] := by
  induction blanks generalizing afterStar with
  | nil => simp [dropMarked]
  | cons c rest ih =>
    obtain ⟨first, below⟩ := List.forall_mem_cons.1 blank
    have slash : c ≠ '/' := by rintro rfl; exact absurd first (by decide)
    simpa [dropMarked, slash] using ih below _

theorem dropMarked_append_blank {blanks : List Char} (blank : Text.AllBlank blanks)
    (mark : Option Bool) (text : List Char) :
    ∃ kept, Text.AllBlank kept ∧
      dropMarked mark (text ++ blanks) = dropMarked mark text ++ kept := by
  fun_induction dropMarked mark text with
  | case1 mark =>
    cases mark with
    | none => exact ⟨blanks, blank, by simpa [dropMarked] using dropMarked_blank_append blank []⟩
    | some afterStar => exact ⟨[], by simp [Text.AllBlank], by simp [dropMarked_some_blank blank]⟩
  | case2 rest ih => simpa [dropMarked] using ih
  | case3 afterStar c rest ih => simpa [dropMarked] using ih
  | case4 c rest plain ih =>
    obtain ⟨kept, kept_blank, joined⟩ := ih
    refine ⟨kept, kept_blank, ?_⟩
    have other : blanks.head? ≠ some '*' := fun first =>
      absurd (blank '*' (List.mem_of_mem_head? first)) (by decide)
    have code := no_comment_append (no_comment_of_plain plain) other
    rw [List.cons_append, dropMarked_cons code, joined, List.cons_append]

theorem trim_dropMarked_trim (text : List Char) :
    Text.trim (dropMarked none (Text.trim text)) = Text.trim (dropMarked none text) := by
  obtain ⟨before, after, before_blank, after_blank, joined⟩ := Text.exists_trim text
  obtain ⟨kept, kept_blank, inner⟩ := dropMarked_append_blank after_blank none (Text.trim text)
  have whole : dropMarked none text = before ++ (dropMarked none (Text.trim text) ++ kept) := by
    rw [← inner, ← dropMarked_blank_append before_blank, ← List.append_assoc, ← joined]
  rw [whole, Text.trim_blank_append before_blank, Text.trim_append_blank kept_blank]

def behindComment? (text : List Char) : Option (List Char) :=
  (Text.splitAtText ['*', '/'] text).map Prod.snd

theorem behindComment_cons {c : Char} (other : c ≠ '*') (text : List Char) :
    behindComment? (c :: text) = behindComment? text := by
  simp [behindComment?, Text.splitAtText, List.isPrefixOf?, Ne.symm other, Option.map_map,
    Function.comp_def]

theorem behindComment_star_cons (c : Char) (text : List Char) :
    behindComment? ('*' :: c :: text) =
      if c = '/' then some text else behindComment? (c :: text) := by
  by_cases slash : c = '/'
  · simp [behindComment?, Text.splitAtText, List.isPrefixOf?, slash]
  · simp [behindComment?, Text.splitAtText.eq_2 _ '*', List.isPrefixOf?, slash, Ne.symm slash,
      Option.map_map, Function.comp_def]

theorem dropMarked_some (afterStar : Bool) (text : List Char) :
    dropMarked (some afterStar) text =
      ((behindComment? (if afterStar then '*' :: text else text)).map (dropMarked none)).getD
        [] := by
  induction text generalizing afterStar with
  | nil =>
    cases afterStar <;> simp [dropMarked, behindComment?, Text.splitAtText, List.isPrefixOf?]
  | cons c rest ih =>
    have below : dropMarked (some (c = '*')) rest =
        ((behindComment? (c :: rest)).map (dropMarked none)).getD [] := by
      rw [ih]
      by_cases star : c = '*'
      · simp [star]
      · simp [star, behindComment_cons star]
    cases afterStar with
    | false => simpa [dropMarked] using below
    | true =>
      by_cases slash : c = '/'
      · simp [dropMarked, behindComment_star_cons, slash]
      · simpa [dropMarked, behindComment_star_cons, slash] using below

theorem trim_dropMarked_dropLeadingComments (text : List Char) :
    Text.trim (dropMarked none (dropLeadingComments text)) =
      Text.trim (dropMarked none text) := by
  fun_induction dropLeadingComments text with
  | case1 rest unended =>
    have nothing : behindComment? rest = none := by simp [behindComment?, unended]
    simp [dropMarked, dropMarked_some, nothing]
  | case2 rest comment after found ih =>
    have behind : behindComment? rest = some after := by simp [behindComment?, found]
    obtain ⟨blanks, blank, joined⟩ := Text.exists_trimStart after
    calc Text.trim (dropMarked none (dropLeadingComments (Text.trimStart after)))
      _ = Text.trim (dropMarked none (Text.trimStart after)) := ih
      _ = Text.trim (dropMarked none after) := by
        conv_rhs => rw [joined, dropMarked_blank_append blank, Text.trim_blank_append blank]
      _ = Text.trim (dropMarked none ('/' :: '*' :: rest)) := by
        simp [dropMarked, dropMarked_some, behind]
  | case3 => rfl

theorem dropLeadingComments_of_code {text : List Char} (code : ¬ commentMark <+: text) :
    dropLeadingComments text = text := by
  fun_cases dropLeadingComments text with
  | case1 rest => simp [commentMark] at code
  | case2 rest => simp [commentMark] at code
  | case3 => rfl

theorem code_dropLeadingComments (text : List Char) :
    ¬ commentMark <+: dropLeadingComments text := by
  fun_induction dropLeadingComments text with
  | case1 => simp [commentMark]
  | case2 rest comment after found ih => exact ih
  | case3 text other =>
    rintro ⟨rest, rfl⟩
    exact other rest rfl

theorem trimmed_dropLeadingComments {text : List Char} (trimmed : Text.Trimmed text) :
    Text.Trimmed (dropLeadingComments text) := by
  fun_induction dropLeadingComments text with
  | case1 => exact ⟨by simp, by simp⟩
  | case2 rest comment after found ih =>
    refine ih ⟨Text.first_trimStart after, Text.last_of_suffix ?_ trimmed.last⟩
    have behind : after <:+ '/' :: '*' :: rest := by
      rw [Text.eq_of_splitAtText found]
      exact ⟨'/' :: '*' :: (comment ++ ['*', '/']), by simp⟩
    exact (List.dropWhile_suffix isBlank).trans behind
  | case3 => exact trimmed

def declared (piece : List Char) : List Char := dropLeadingComments (Text.trim piece)

theorem declaration?_congr {piece piece' : List Char} (same : declared piece = declared piece') :
    declaration? piece = declaration? piece' := by
  unfold declared at same
  unfold declaration?
  rw [same]

-- Only a text that starts with a hyphen declares a custom property.
theorem declaration?_eq_none {piece rest : List Char} {c : Char}
    (start : declared piece = c :: rest) (dark : isBlank c = false) (other : c ≠ '-') :
    declaration? piece = none := by
  unfold declared at start
  unfold declaration?
  rw [start]
  split
  · rfl
  · rename_i name value cut
    have named : ['-', '-'].isPrefixOf (Text.trim name) = false := by
      have joined := (Text.eq_of_splitOnce cut).1
      cases name with
      | nil => simp [Text.trim, Text.trimStart, Text.trimEnd, Text.dropWhileEnd]
      | cons d name =>
        obtain ⟨rfl, -⟩ := List.cons.inj joined
        obtain ⟨kept, trimmed⟩ := Text.exists_trim_cons dark name
        simp [trimmed, List.isPrefixOf, Ne.symm other]
    simp [named]

def PieceApart (piece : List Char) : Prop :=
  Unmarked (declared piece) ∨ (declared piece).head?.any (fun c => c ≠ '-' && c ≠ '/') = true

instance (piece : List Char) : Decidable (PieceApart piece) := inferInstanceAs (Decidable (_ ∨ _))

theorem declaration?_dropMarked {piece : List Char} (apart : PieceApart piece) :
    declaration? (dropMarked none piece) = declaration? piece := by
  have trimmed : Text.Trimmed (declared piece) :=
    trimmed_dropLeadingComments (Text.trimmed_trim piece)
  have cleared : declared (dropMarked none piece) =
      dropLeadingComments (Text.trim (dropMarked none (declared piece))) := by
    simp only [declared, trim_dropMarked_dropLeadingComments, trim_dropMarked_trim]
  rcases apart with unmarked | other
  · apply declaration?_congr
    rw [cleared, dropMarked_of_unmarked unmarked, Text.trim_eq_self trimmed]
    exact dropLeadingComments_of_code (code_dropLeadingComments _)
  · obtain ⟨c, first, hyphen, slash⟩ :
        ∃ c, (declared piece).head? = some c ∧ c ≠ '-' ∧ c ≠ '/' := by
      simpa [Option.any_eq_true] using other
    obtain ⟨rest, start⟩ := List.head?_eq_some_iff.1 first
    have dark : isBlank c = false := trimmed.first c first
    have code : ∀ text, ¬ commentMark <+: c :: text := by simp [comment_starts_iff, slash]
    obtain ⟨kept, trimmed⟩ := Text.exists_trim_cons dark (dropMarked none rest)
    rw [start, dropMarked_cons (code rest), trimmed, dropLeadingComments_of_code (code kept)]
      at cleared
    rw [declaration?_eq_none cleared dark hyphen, declaration?_eq_none start dark hyphen]

structure BodyApart (body : List Char) : Prop where
  level : staysLevel 0 none body = true
  pieces : ∀ piece ∈ splitDeclarations 0 body, PieceApart piece

instance (body : List Char) : Decidable (BodyApart body) :=
  decidable_of_iff
    (staysLevel 0 none body = true ∧ ∀ piece ∈ splitDeclarations 0 body, PieceApart piece)
    ⟨fun ⟨level, pieces⟩ => ⟨level, pieces⟩, fun ⟨level, pieces⟩ => ⟨level, pieces⟩⟩

theorem declarations_dropMarked {body : List Char} (apart : BodyApart body)
    (opening opening' : List Char) :
    Block.declarations ⟨opening, dropMarked none body⟩ =
      Block.declarations ⟨opening', body⟩ := by
  have split := splitDeclarations_dropMarked apart.level
  simp only [Option.map_none, Option.getD_none, dropFromPieces_none] at split
  simp only [Block.declarations, split, List.filterMap_map]
  exact List.filterMap_congr fun piece member => declaration?_dropMarked (apart.pieces piece member)

end UtilityCss.Stylesheet
