import Mathlib.Data.List.Infix
import UtilityCss.Proofs.Stylesheet.Places
import UtilityCss.Proofs.Text.Cut
import UtilityCss.Stylesheet.Basic

set_option autoImplicit false

namespace UtilityCss.Stylesheet

theorem Cutting.blocks_cons (c : Char) (cutting : Cutting) :
    (cutting.cons c).blocks.map Prod.snd = cutting.blocks.map Prod.snd := by
  obtain ⟨blocks, rest⟩ := cutting
  cases blocks <;> rfl

def declarationsFrom (place : Place) (text : List Char) : List (String × String) :=
  ((cutFrom place text).blocks.map Prod.snd).flatMap Block.declarations

def startsTheme (place : Place) (text : List Char) : Bool :=
  place.isOutermost && themeMarker.isPrefixOf text

theorem cutFrom_step {place : Place} {c : Char} {rest : List Char}
    (other : startsTheme place (c :: rest) = false) :
    cutFrom place (c :: rest) = (cutFrom (place.step c) rest).cons c := by
  have outside : (place.isOutermost && themeMarker.isPrefixOf (c :: rest)) ≠ true :=
    Bool.eq_false_iff.1 other
  rw [cutFrom, if_neg outside]

theorem declarationsFrom_step {place : Place} {c : Char} {rest : List Char}
    (other : startsTheme place (c :: rest) = false) :
    declarationsFrom place (c :: rest) = declarationsFrom (place.step c) rest := by
  rw [declarationsFrom, cutFrom_step other, Cutting.blocks_cons, declarationsFrom]

theorem cutFrom_block {place : Place} {text after : List Char} {block : Block}
    (starts : startsTheme place text = true) (found : blockAt? text = some (block, after)) :
    cutFrom place text =
      let cutting := cutFrom (place.walk block.text) after
      ⟨([], block) :: cutting.blocks, cutting.rest⟩ := by
  cases text with
  | nil => simp [startsTheme, themeMarker] at starts
  | cons c rest =>
    unfold startsTheme at starts
    rw [cutFrom, if_pos starts]
    split
    · simp_all
    · rename_i block' after' found'
      obtain ⟨rfl, rfl⟩ : block' = block ∧ after' = after := by simpa [found'] using found
      rfl

theorem declarationsFrom_block {place : Place} {text after : List Char} {block : Block}
    (starts : startsTheme place text = true) (found : blockAt? text = some (block, after)) :
    declarationsFrom place text =
      block.declarations ++ declarationsFrom (place.walk block.text) after := by
  rw [declarationsFrom, cutFrom_block starts found]
  simp [declarationsFrom]

theorem cutFrom_unclosed {place : Place} {text : List Char}
    (starts : startsTheme place text = true) (unclosed : blockAt? text = none) :
    cutFrom place text = ⟨[], text⟩ := by
  cases text with
  | nil => simp [startsTheme, themeMarker] at starts
  | cons c rest =>
    unfold startsTheme at starts
    rw [cutFrom, if_pos starts]
    split
    · rfl
    · simp_all

theorem declarationsFrom_unclosed {place : Place} {text : List Char}
    (starts : startsTheme place text = true) (unclosed : blockAt? text = none) :
    declarationsFrom place text = [] := by
  rw [declarationsFrom, cutFrom_unclosed starts unclosed]
  rfl

def themeTexts (place : Place) (text : List Char) : List (List Char) :=
  match text with
  | [] => []
  | c :: rest =>
    if startsTheme place (c :: rest) then
      (c :: rest) :: match _found : blockAt? (c :: rest) with
        | none => []
        | some (block, after) => themeTexts (place.walk block.text) after
    else themeTexts (place.step c) rest
termination_by text.length
decreasing_by
  · have sizes := congrArg List.length (eq_of_blockAt _found)
    simp [Block.text] at sizes ⊢
    omega
  · simp

def extent (inner : List Char) : List Char := ((untilClosed 1 none inner).map Prod.fst).getD inner

structure BlockApart (opening inner : List Char) : Prop where
  brace : (Inside.after .code opening).mark = none
  unmarked : Unmarked (dropComments (Inside.after .code (opening ++ ['{'])) (extent inner))
  body : ∀ parts ∈ untilClosed 1 none inner, BodyApart parts.1

theorem BlockApart.opened {opening inner : List Char} (apart : BlockApart opening inner) :
    (Inside.after .code (opening ++ ['{'])).mark = none := by
  rw [Inside.after_append (by simp), Inside.after_singleton]
  exact Inside.mark_next apart.brace _

/-- Whether the comments of a stylesheet stand apart from what they stand between, as far as its
theme is concerned. -/
structure CommentsApart (css : List Char) : Prop where
  settled : uncommented (uncommented css) = uncommented css
  markers : ∀ text ∈ css.tails, text.head? = some '@' → themeMarker <+: uncommented text →
    themeMarker <+: text
  blocks : ∀ text ∈ themeTexts Place.top css, ∀ parts ∈ Text.splitOnce '{' text,
    BlockApart parts.1 parts.2

instance (opening inner : List Char) : Decidable (BlockApart opening inner) :=
  decidable_of_iff
    ((Inside.after .code opening).mark = none ∧
      Unmarked (dropComments (Inside.after .code (opening ++ ['{'])) (extent inner)) ∧
      ∀ parts ∈ untilClosed 1 none inner, BodyApart parts.1)
    ⟨fun ⟨brace, unmarked, body⟩ => ⟨brace, unmarked, body⟩,
      fun ⟨brace, unmarked, body⟩ => ⟨brace, unmarked, body⟩⟩

instance (css : List Char) : Decidable (CommentsApart css) :=
  decidable_of_iff
    (uncommented (uncommented css) = uncommented css ∧
      (∀ text ∈ css.tails, text.head? = some '@' → themeMarker <+: uncommented text →
        themeMarker <+: text) ∧
      ∀ text ∈ themeTexts Place.top css, ∀ parts ∈ Text.splitOnce '{' text,
        BlockApart parts.1 parts.2)
    ⟨fun ⟨settled, markers, blocks⟩ => ⟨settled, markers, blocks⟩,
      fun ⟨settled, markers, blocks⟩ => ⟨settled, markers, blocks⟩⟩

-- A closed block is still a block without its comments, and its body is cleared of them.
theorem blockAt_dropComments {place kept : Place} {text opening inner body after : List Char}
    (code : place.inside = .code) (both : Kept place kept text)
    (cut : Text.splitOnce '{' text = some (opening, inner))
    (closed : untilClosed 1 none inner = some (body, after)) (apart : BlockApart opening inner) :
    let behind := place.walk (Block.text ⟨opening, body⟩)
    let block : Block := ⟨dropComments .code opening, dropMarked none body⟩
    blockAt? (dropComments .code text) = some (block, dropComments behind.inside after) ∧
      Kept behind (kept.walk block.text) after := by
  intro behind block
  obtain ⟨text_eq, absent⟩ := Text.eq_of_splitOnce cut
  have inner_eq := eq_of_untilClosed closed
  have absent' : '{' ∉ dropComments .code opening := fun member =>
    absent ((dropComments_sublist .code opening).subset member)
  have unmarked : Unmarked (dropComments (Inside.after .code (opening ++ ['{'])) body) := by
    simpa [extent, closed] using apart.unmarked
  have opened := apart.opened
  have cleared := dropComments_eq_dropMarked unmarked
  rw [opened] at cleared
  have ended : ((Inside.after .code (opening ++ ['{'])).after body).mark = none :=
    mark_after_of_closed (by rwa [opened]) unmarked
  -- First past the brace that opens the block, then past the one that closes it.
  rw [text_eq, inner_eq] at both
  obtain ⟨inside, both⟩ := both.walk_past (by decide) (by decide) (by rw [code]; exact apart.brace)
  rw [code] at inside both
  obtain ⟨inside', both⟩ := both.walk_past (by decide) (by decide) (by rw [inside]; exact ended)
  rw [inside] at inside' both
  rw [cleared] at both
  have text_split : ∀ opening body : List Char,
      Block.text ⟨opening, body⟩ = (opening ++ ['{']) ++ (body ++ ['}']) := by simp [Block.text]
  have behind_eq : behind = (place.walk (opening ++ ['{'])).walk (body ++ ['}']) := by
    rw [← Place.walk_append, ← text_split]
  constructor
  · have closed' := untilClosed_dropMarked closed (cleared ▸ unmarked)
    rw [text_eq, inner_eq, dropComments_around (by decide) (by decide) apart.brace,
      dropComments_around (by decide) (by decide) ended, cleared, ← inside', ← behind_eq, blockAt?,
      Text.splitOnce_append absent']
    simp [closed', block]
  · rw [behind_eq, text_split, Place.walk_append kept]
    exact both

-- A block that is not closed is not closed without its comments either.
theorem blockAt_dropComments_none {text : List Char} (unclosed : blockAt? text = none)
    (apart : ∀ parts ∈ Text.splitOnce '{' text, BlockApart parts.1 parts.2) :
    blockAt? (dropComments .code text) = none := by
  cases cut : Text.splitOnce '{' text with
  | none =>
    have absent : '{' ∉ dropComments .code text := fun member =>
      Text.splitOnce_eq_none.1 cut ((dropComments_sublist .code text).subset member)
    simp [blockAt?, Text.splitOnce_eq_none.2 absent]
  | some parts =>
    obtain ⟨opening, inner⟩ := parts
    have block := apart _ cut
    have unended : untilClosed 1 none inner = none := by simpa [blockAt?, cut] using unclosed
    obtain ⟨rfl, absent⟩ := Text.eq_of_splitOnce cut
    have absent' : '{' ∉ dropComments .code opening := fun member =>
      absent ((dropComments_sublist .code opening).subset member)
    have unmarked : Unmarked (dropComments (Inside.after .code (opening ++ ['{'])) inner) := by
      simpa [extent, unended] using block.unmarked
    have cleared := dropComments_eq_dropMarked unmarked
    rw [block.opened] at cleared
    have unended' := untilClosed_dropMarked_none unended (cleared ▸ unmarked)
    rw [dropComments_around (by decide) (by decide) block.brace, cleared, blockAt?,
      Text.splitOnce_append absent']
    simp [unended']

theorem themeTexts_step {place : Place} {c : Char} {rest : List Char}
    (other : startsTheme place (c :: rest) = false) :
    themeTexts place (c :: rest) = themeTexts (place.step c) rest := by
  rw [themeTexts, if_neg (by simp [other])]

theorem themeTexts_block {place : Place} {text after : List Char} {block : Block}
    (starts : startsTheme place text = true) (found : blockAt? text = some (block, after)) :
    themeTexts place text = text :: themeTexts (place.walk block.text) after := by
  cases text with
  | nil => simp [startsTheme, themeMarker] at starts
  | cons c rest =>
    rw [themeTexts, if_pos starts]
    split <;> simp_all

theorem mem_themeTexts {place : Place} {text : List Char}
    (starts : startsTheme place text = true) : text ∈ themeTexts place text := by
  cases text with
  | nil => simp [startsTheme, themeMarker] at starts
  | cons c rest => simp [themeTexts, starts]

theorem exists_of_blockAt {text after : List Char} {block : Block}
    (found : blockAt? text = some (block, after)) :
    ∃ inner, Text.splitOnce '{' text = some (block.opening, inner) ∧
      untilClosed 1 none inner = some (block.body, after) := by
  unfold blockAt? at found
  split at found
  · contradiction
  · rename_i opening inner cut
    obtain ⟨⟨body, behind⟩, closed, equal⟩ := Option.map_eq_some_iff.1 found
    obtain ⟨rfl, rfl⟩ : Block.mk opening body = block ∧ behind = after := by simpa using equal
    exact ⟨inner, cut, closed⟩

theorem startsTheme_of_first {place : Place} {c : Char} (other : c ≠ '@') (rest : List Char) :
    startsTheme place (c :: rest) = false := by
  simp [startsTheme, themeMarker, List.isPrefixOf, Ne.symm other]

-- A theme block starts at a place that stays exactly if it starts there without the comments.
theorem Kept.startsTheme_eq {place kept : Place} {c : Char} {rest : List Char}
    (both : Kept place kept (c :: rest)) (outside : place.inside.mark = none)
    (plain : place.inside = .code → ¬ commentMark <+: c :: rest)
    (marker : c = '@' → themeMarker <+: uncommented (c :: rest) → themeMarker <+: c :: rest) :
    startsTheme kept (dropComments place.inside (c :: rest)) = startsTheme place (c :: rest) := by
  have inside := both.inside
  rw [Inside.kept_of_mark outside] at inside
  rw [Bool.eq_iff_iff]
  simp only [startsTheme, Place.isOutermost, both.depth, inside, Bool.and_eq_true,
    decide_eq_true_eq, List.isPrefixOf_iff_prefix, and_congr_right_iff, and_imp]
  intro _ code
  constructor
  · intro marked
    have first : c = '@' := by
      rw [dropComments_cons outside plain] at marked
      exact (List.cons_prefix_cons.1 marked).1.symm
    rw [code] at marked
    exact marker first marked
  · rintro ⟨behind, whole⟩
    rw [← whole, code]
    exact ⟨dropComments .code behind, by simp [themeMarker, dropComments, isQuoteMark]⟩

-- Where a theme block starts, the declarations are those of the block and those behind it.
theorem Kept.declarationsFrom_block {place kept : Place} {text : List Char}
    (both : Kept place kept text) (starts : startsTheme place text = true)
    (keptStarts : startsTheme kept (dropComments place.inside text) = true)
    (apart : ∀ parts ∈ Text.splitOnce '{' text, BlockApart parts.1 parts.2)
    (behind : ∀ {block : Block} {after : List Char} {kept' : Place},
      blockAt? text = some (block, after) → Kept (place.walk block.text) kept' after →
      declarationsFrom kept' (dropComments (place.walk block.text).inside after) =
        declarationsFrom (place.walk block.text) after) :
    declarationsFrom kept (dropComments place.inside text) = declarationsFrom place text := by
  have code : place.inside = .code := by simp_all [startsTheme, Place.isOutermost]
  rw [code] at keptStarts ⊢
  cases found : blockAt? text with
  | none =>
    rw [declarationsFrom_unclosed starts found,
      declarationsFrom_unclosed keptStarts (blockAt_dropComments_none found apart)]
  | some parts =>
    obtain ⟨block, after⟩ := parts
    obtain ⟨inner, cut, closed⟩ := exists_of_blockAt found
    obtain ⟨keptFound, both⟩ := blockAt_dropComments code both cut closed (apart _ cut)
    rw [Stylesheet.declarationsFrom_block starts found,
      Stylesheet.declarationsFrom_block keptStarts keptFound, ← behind found both,
      declarations_dropMarked ((apart _ cut).body _ closed)]

structure ApartFrom (place : Place) (text : List Char) : Prop where
  markers : ∀ start, start <:+ text → start.head? = some '@' →
    themeMarker <+: uncommented start → themeMarker <+: start
  blocks : ∀ start ∈ themeTexts place text, ∀ parts ∈ Text.splitOnce '{' start,
    BlockApart parts.1 parts.2

theorem ApartFrom.mono {place place' : Place} {text text' : List Char}
    (apart : ApartFrom place text) (suffix : text' <:+ text)
    (fewer : themeTexts place' text' ⊆ themeTexts place text) : ApartFrom place' text' where
  markers start ends := apart.markers start (ends.trans suffix)
  blocks start member := apart.blocks start (fewer member)

theorem ApartFrom.step {place : Place} {c : Char} {rest : List Char}
    (apart : ApartFrom place (c :: rest)) (other : startsTheme place (c :: rest) = false) :
    ApartFrom (place.step c) rest :=
  apart.mono (List.suffix_cons c rest) (by simp [themeTexts_step other])

theorem ApartFrom.behind {place : Place} {text after : List Char} {block : Block}
    (apart : ApartFrom place text) (starts : startsTheme place text = true)
    (found : blockAt? text = some (block, after)) : ApartFrom (place.walk block.text) after :=
  apart.mono ⟨block.text, (eq_of_blockAt found).symm⟩ (by simp [themeTexts_block starts found])

theorem declarationsFrom_dropComments {place kept : Place} {text : List Char}
    (both : Kept place kept text) (apart : ApartFrom place text) :
    declarationsFrom kept (dropComments place.inside text) = declarationsFrom place text := by
  -- On the length: a comment starts with two characters and a block is passed at once.
  induction length : text.length using Nat.strong_induction_on generalizing place kept text with
  | _ size ih =>
  subst length
  cases text with
  | nil => cases place.inside <;> simp [dropComments, declarationsFrom, cutFrom]
  | cons c rest =>
    have inside : (place.step c).inside = place.inside.next c := by
      rw [Place.step_of_between both.between, Place.inside_step]
    by_cases plain : place.inside = .code → ¬ commentMark <+: c :: rest
    · cases outside : place.inside.mark with
      | some afterStar =>
        -- Inside a comment only the place in the stylesheet goes on.
        obtain ⟨star, commented⟩ : ∃ star, place.inside = .comment star := by
          cases inside : place.inside <;> simp_all [Inside.mark]
        have other : startsTheme place (c :: rest) = false := by
          simp [startsTheme, Place.isOutermost, commented]
        have same := ih rest.length (by simp) (both.comment commented) (apart.step other) rfl
        rw [inside, commented] at same
        rw [declarationsFrom_step other, ← same, commented]
        rfl
      | none =>
        have starts_eq := both.startsTheme_eq outside plain fun first =>
          apart.markers _ List.suffix_rfl (by simp [first])
        cases starts : startsTheme place (c :: rest) with
        | false =>
          have same := ih rest.length (by simp) (both.step outside plain) (apart.step starts) rfl
          rw [starts, dropComments_cons outside plain] at starts_eq
          rw [dropComments_cons outside plain, declarationsFrom_step starts_eq,
            declarationsFrom_step starts, ← same, inside]
        | true =>
          refine both.declarationsFrom_block starts (starts_eq.trans starts)
            (apart.blocks _ (mem_themeTexts starts)) fun {block after _} found behind => ?_
          have shorter : after.length < (c :: rest).length := by
            rw [eq_of_blockAt found]
            simp [Block.text]
            omega
          exact ih after.length shorter behind (apart.behind starts found) rfl
    · -- A comment starts: the place goes inside it, and the other one stays.
      obtain ⟨code, marked⟩ : place.inside = .code ∧ commentMark <+: c :: rest := by
        simpa using plain
      obtain ⟨rfl, star⟩ := comment_starts_iff.1 marked
      obtain ⟨rest, rfl⟩ := List.head?_eq_some_iff.1 star
      have slash : startsTheme place ('/' :: '*' :: rest) = false :=
        startsTheme_of_first (by decide) _
      have star : startsTheme (place.step '/') ('*' :: rest) = false :=
        startsTheme_of_first (by decide) _
      have shorter : rest.length < rest.length + 1 + 1 := by omega
      have same := ih rest.length shorter (both.start code)
        ((apart.step slash).step star) rfl
      rw [declarationsFrom_step slash, declarationsFrom_step star, ← same, Place.step_start code,
        code]
      rfl

/-- Comments that stand apart never count in the theme of a stylesheet. -/
theorem theme_uncommented (path : Path) (css : String) (apart : CommentsApart css.toList) :
    (parse path (String.ofList (uncommented css.toList))).theme = (parse path css).theme := by
  have both : Kept Place.top Place.top css.toList :=
    ⟨rfl, rfl, Place.between_top _, Place.between_top _, apart.settled⟩
  have same := declarationsFrom_dropComments both
    ⟨fun start suffix => apart.markers start ((List.mem_tails _ _).2 suffix), apart.blocks⟩
  have declarations : ∀ css : String,
      (parse path css).declarations = declarationsFrom Place.top css.toList := fun _ => rfl
  rw [theme, theme, declarations, declarations, String.toList_ofList]
  exact congrArg Theme.Tokens.ofList same

-- Comments outside the theme blocks, in front of a brace, in front of and behind declarations, and
-- in what declares no token.
def commentedPage : String :=
  "/* tokens: @theme \x7b --x: 1; \x7d */ @source \"./src/**/*.html\";\n" ++
  "@theme /* base */ \x7b /* warm (red; blue), \"loud\" */ --a: /x; --b: calc(2px);\n" ++
  "  color: red /* old */; /* --c: 3 */ \x7d .p \x7b /* ; */ \x7d @theme \x7b --d: 4 \x7d"

theorem theme_uncommented_page :
    CommentsApart commentedPage.toList ∧
      (parse ⟨"/r/a.css"⟩ (String.ofList (uncommented commentedPage.toList))).theme =
        (parse ⟨"/r/a.css"⟩ commentedPage).theme ∧
      (parse ⟨"/r/a.css"⟩ commentedPage).declarations =
        [("--a", "/x"), ("--b", "calc(2px)"), ("--d", "4")] := by
  have apart : CommentsApart commentedPage.toList := by decide +kernel
  exact ⟨apart, theme_uncommented ⟨"/r/a.css"⟩ commentedPage apart, by decide +kernel⟩

-- A semicolon in a comment separates declarations: the second one in it counts, the next one not.
example : (parse ⟨"/r/a.css"⟩ "@theme \x7b /* --a: 1; --b: 2; */ --c: 3; \x7d").declarations =
    [("--b", "2")] := by decide +kernel

end UtilityCss.Stylesheet
