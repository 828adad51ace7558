import UtilityCss.Proofs.Stylesheet.EngineImports

set_option autoImplicit false

namespace UtilityCss.Stylesheet

variable {inside : Inside} {place : Place} {c : Char} {text rest before behind : List Char}
  {block : Block}

theorem dropComments_append_of_last (last : (dropComments inside text).getLast? ≠ some '/')
    (rest : List Char) : dropComments inside (text ++ rest) =
      dropComments inside text ++ dropComments (inside.after text) rest := by
  fun_induction Inside.after inside text with
  | case1 text ih => exact ih last
  | case2 inside c text plain ih =>
    cases outside : inside.mark with
    | some afterStar =>
      cases inside with
      | comment afterStar => exact ih last
      | _ => simp [Inside.mark] at outside
    | none =>
      have code : inside = .code → ¬ commentMark <+: c :: text := fun inside_eq =>
        no_comment_of_plain fun rest' => plain rest' inside_eq
      rw [dropComments_cons outside code] at last ⊢
      have whole : inside = .code → ¬ commentMark <+: c :: (text ++ rest) := by
        intro inside_eq marked
        obtain ⟨rfl, star⟩ := comment_starts_iff.1 marked
        cases text with
        | nil => cases inside <;> simp_all [dropComments, Inside.next]
        | cons d text => exact code inside_eq (comment_starts_iff.2 ⟨rfl, star⟩)
      have below : (dropComments (inside.next c) text).getLast? ≠ some '/' := by
        intro slash
        rw [List.getLast?_cons, slash] at last
        exact last rfl
      rw [List.cons_append, dropComments_cons outside whole, ih below, List.cons_append]
  | case3 inside => cases inside <;> simp [dropComments]

namespace Inside

def Opened : Inside → Prop
  | .quoted quote _ => isQuoteMark quote = true
  | _ => True

theorem Opened.next (opened : inside.Opened) (c : Char) : (inside.next c).Opened := by
  cases inside with
  | code =>
    simp only [Inside.next]
    split_ifs with quote
    · exact quote
    · trivial
  | comment afterStar =>
    simp only [Inside.next, stepComment]
    split_ifs <;> trivial
  | quoted quote escaped =>
    simp only [Inside.next, stepQuoted]
    split_ifs
    · exact opened
    · exact opened
    · trivial
    · exact opened

theorem Opened.after (opened : inside.Opened) (text : List Char) : (inside.after text).Opened := by
  fun_induction Inside.after inside text with
  | case1 text ih => exact ih trivial
  | case2 inside c text _ ih => exact ih (opened.next c)
  | case3 => exact opened

theorem code_of_next (opened : inside.Opened) (quote : isQuoteMark c = false) (slash : c ≠ '/')
    (code : inside.next c = .code) : inside = .code := by
  cases inside with
  | code => rfl
  | comment afterStar => simp [Inside.next, stepComment, slash] at code
  | quoted mark escaped =>
    have other : c ≠ mark := by
      rintro rfl
      rw [Opened, quote] at opened
      cases opened
    simp only [Inside.next, stepQuoted] at code
    split_ifs at code

theorem opened_code : Inside.code.Opened := trivial

theorem code_of_after_concat (quote : isQuoteMark c = false) (slash : c ≠ '/') (star : c ≠ '*')
    (code : Inside.after .code (text ++ [c]) = .code) : Inside.after .code text = .code := by
  rw [after_append (by simpa using star), after_singleton] at code
  exact code_of_next (opened_code.after text) quote slash code

end Inside

def Block.front (block : Block) : List Char := block.opening ++ '{' :: block.body

theorem Block.text_eq (block : Block) : block.text = block.front ++ ['}'] := rfl

theorem cutFrom_cases (place : Place) (text : List Char) :
    cutFrom place text = ⟨[], text⟩ ∨
      ∃ before block after, text = before ++ (block.text ++ after) ∧
        (place.walk before).isOutermost = true ∧ block.text.head? = some '@' ∧
        cutFrom place text =
          let cutting := cutFrom ((place.walk before).walk block.text) after
          ⟨(before, block) :: cutting.blocks, cutting.rest⟩ := by
  fun_induction cutFrom place text with
  | case1 => exact .inl rfl
  | case2 => exact .inl rfl
  | case3 place c rest starts block after found cutting ih =>
    obtain ⟨outermost, marked⟩ := Bool.and_eq_true_iff.1 starts
    have joined := eq_of_blockAt found
    refine .inr ⟨[], block, after, joined, outermost, ?_, rfl⟩
    obtain ⟨rfl, -⟩ := List.cons_prefix_cons.1 (List.isPrefixOf_iff_prefix.1 marked)
    have nonempty : block.text ≠ [] := by simp [Block.text]
    rw [← List.head?_append_of_ne_nil _ nonempty, ← joined]
    rfl
  | case4 place c rest other ih =>
    rcases ih with whole | ⟨before, block, after, joined, outermost, marked, cut⟩
    · exact .inl (by rw [whole]; rfl)
    · exact .inr ⟨c :: before, block, after, by rw [joined]; rfl, outermost, marked,
        by rw [cut]; rfl⟩

def EndsStatement (text : List Char) : Prop :=
  ∀ c ∈ (Text.trimEnd text).getLast?, c = ';' ∨ c = '}'

instance (text : List Char) : Decidable (EndsStatement text) :=
  decidable_of_iff ((Text.trimEnd text).getLast?.all (fun c => c = ';' || c = '}') = true)
    (by simp [EndsStatement, Option.all_eq_true])

structure StandsApart (entry : List Char × Block) : Prop where
  closed : Inside.after .code entry.2.text = .code
  free : hasEngineImport entry.2.text = false
  front : EndsStatement (uncommented entry.1)

instance (entry : List Char × Block) : Decidable (StandsApart entry) :=
  decidable_of_iff (Inside.after .code entry.2.text = .code ∧
      hasEngineImport entry.2.text = false ∧ EndsStatement (uncommented entry.1))
    ⟨fun ⟨closed, free, front⟩ => ⟨closed, free, front⟩,
      fun ⟨closed, free, front⟩ => ⟨closed, free, front⟩⟩

theorem EndsStatement.last (ends : EndsStatement text) : text.getLast? ≠ some '/' := by
  intro slash
  have kept := @Text.trimEnd_of_last text (by rw [slash]; simp; decide)
  rw [EndsStatement, kept, slash] at ends
  exact absurd (ends '/' rfl) (by decide)

theorem StandsApart.code {entry : List Char × Block} (apart : StandsApart entry) :
    Inside.after .code entry.2.front = .code :=
  Inside.code_of_after_concat (by decide : isQuoteMark '}' = false) (by decide) (by decide)
    apart.closed

theorem StandsApart.uncommented_text {entry : List Char × Block} (apart : StandsApart entry) :
    uncommented entry.2.text = uncommented entry.2.front ++ ['}'] := by
  have outside : (Inside.after .code entry.2.front).mark = none := by rw [apart.code]; rfl
  rw [Block.text_eq, uncommented, dropComments_around (by decide) (by decide) outside]
  cases Inside.after .code (entry.2.front ++ ['}']) <;> rfl

theorem StandsApart.uncommented_append {entry : List Char × Block} (apart : StandsApart entry)
    (code : Inside.after .code entry.1 = .code) (rest : List Char) :
    uncommented (entry.1 ++ rest) = uncommented entry.1 ++ uncommented rest ∧
      uncommented (entry.2.text ++ rest) = uncommented entry.2.text ++ uncommented rest := by
  have before := dropComments_append_of_last apart.front.last rest
  have last : (uncommented entry.2.text).getLast? ≠ some '/' := by
    rw [apart.uncommented_text, List.getLast?_concat]
    decide
  have behind := dropComments_append_of_last last rest
  rw [code] at before
  rw [apart.closed] at behind
  exact ⟨before, behind⟩

namespace Cutting

def uncommentedText (cutting : Cutting) : List Char :=
  cutting.blocks.flatMap (fun (before, block) => uncommented before ++ uncommented block.text) ++
    uncommented cutting.rest

def uncommentedOutside (cutting : Cutting) : List Char :=
  cutting.blocks.flatMap (fun entry => uncommented entry.1) ++ uncommented cutting.rest

theorem uncommentedText_cons (entry : List Char × Block) (blocks : List (List Char × Block)) :
    uncommentedText ⟨entry :: blocks, rest⟩ = uncommented entry.1 ++
      (uncommented entry.2.text ++ uncommentedText ⟨blocks, rest⟩) := by
  simp [uncommentedText]

theorem uncommentedOutside_cons (entry : List Char × Block) (blocks : List (List Char × Block)) :
    uncommentedOutside ⟨entry :: blocks, rest⟩ =
      uncommented entry.1 ++ uncommentedOutside ⟨blocks, rest⟩ := by
  simp [uncommentedOutside]

end Cutting

-- The place behind a block is one between comments again.
theorem code_behind_block (outermost : place.isOutermost = true)
    (marked : block.text.head? = some '@') (apart : StandsApart (before, block)) :
    (place.walk block.text).inside = .code ∧ (place.walk block.text).Between behind := by
  obtain ⟨-, code⟩ : place.depth = 0 ∧ place.inside = .code := by
    simpa [Place.isOutermost] using outermost
  have between (text : List Char) (first : text.head? ≠ some '*') : place.Between text :=
    fun _ => ⟨code, first⟩
  have inner : (place.walk block.front).inside = .code := by
    rw [Place.inside_walk (between _ _), code]
    · exact apart.code
    · rw [Block.text_eq, List.head?_append] at marked
      cases first : block.front.head? <;> simp_all
  constructor
  · rw [Place.inside_walk (between _ (by rw [marked]; decide)), code]
    exact apart.closed
  · have step : place.walk block.text = (place.walk block.front).step '}' := by
      rw [Block.text_eq, Place.walk_append]
      rfl
    rw [step]
    simp [Place.Between, Place.step, inner, isQuoteMark]

theorem uncommented_cutFrom (code : place.inside = .code) (between : place.Between text)
    (apart : ∀ entry ∈ (cutFrom place text).blocks, StandsApart entry) :
    uncommented text = (cutFrom place text).uncommentedText ∧
      uncommented (cutFrom place text).outside = (cutFrom place text).uncommentedOutside := by
  induction length : text.length using Nat.strong_induction_on generalizing place text with
  | _ size ih =>
  subst length
  rcases cutFrom_cases place text with whole | ⟨before, block, after, rfl, outermost, marked, cut⟩
  · rw [whole]
    exact ⟨rfl, rfl⟩
  · rw [cut] at apart ⊢
    obtain ⟨first, others⟩ := List.forall_mem_cons.1 apart
    have inside : Inside.after .code before = .code := by
      have walked : (place.walk before).inside = place.inside.after before :=
        Place.inside_walk fun slash => ⟨code, fun star => (between slash).2 (by simp [star])⟩
      rw [← code, ← walked]
      simp_all [Place.isOutermost]
    obtain ⟨codeBehind, betweenBehind⟩ := code_behind_block outermost marked first
    have shorter : after.length < (before ++ (block.text ++ after)).length := by
      simp [Block.text]
      omega
    obtain ⟨whole, outside⟩ := ih after.length shorter codeBehind betweenBehind others rfl
    have joined := first.uncommented_append inside
    constructor
    · rw [Cutting.uncommentedText_cons, (joined _).1, (joined _).2, whole]
    · rw [Cutting.outside, List.flatMap_cons, List.append_assoc, (joined _).1,
        Cutting.uncommentedOutside_cons]
      exact congrArg _ outside

theorem isWall_of_ends (ends : c = ';' ∨ c = '}') : IsWall c := by
  rcases ends with rfl | rfl
  · exact isWall_semicolon
  · exact isWall_brace

theorem exists_begins_of_blank {blanks : List Char} (blank : Text.AllBlank blanks) (begins : Bool) :
    ∃ later, ∀ rest, engineImportWithin begins (blanks ++ rest) = engineImportWithin later rest := by
  induction blanks generalizing begins with
  | nil => exact ⟨begins, fun _ => rfl⟩
  | cons c blanks ih =>
    cases begins with
    | true => exact ⟨true, engineImportWithin_blank_append blank⟩
    | false =>
      obtain ⟨later, same⟩ := ih (Text.allBlank_cons.1 blank).2 (c = '\n' || c = ';')
      exact ⟨later, fun rest => by
        rw [List.cons_append, engineImportWithin_cons, Bool.false_and, Bool.false_or, same]⟩

theorem EndsStatement.exists_begins (ends : EndsStatement text) (begins : Bool) :
    ∃ later, ∀ rest, engineImportWithin begins (text ++ rest) =
      (engineImportWithin begins text || engineImportWithin later rest) := by
  obtain ⟨blanks, blank, joined⟩ := Text.exists_trimEnd text
  rw [EndsStatement] at ends
  generalize Text.trimEnd text = kept at ends joined
  subst joined
  rw [engineImportWithin_append_blank blank]
  cases kept using List.reverseRecOn with
  | nil => exact exists_begins_of_blank blank begins
  | append_singleton kept c =>
    have wall := isWall_of_ends (ends c (by simp))
    obtain ⟨later, same⟩ := exists_begins_of_blank blank (c = '\n' || c = ';')
    refine ⟨later, fun rest => ?_⟩
    rw [List.append_assoc, List.append_assoc, List.singleton_append,
      engineImportWithin_wall wall begins kept (blanks ++ rest), same,
      engineImportWithin_wall wall begins kept []]
    simp [engineImportWithin]

theorem StandsApart.engineImportWithin_append {entry : List Char × Block}
    (apart : StandsApart entry) (begins : Bool) (rest : List Char) :
    engineImportWithin begins (uncommented entry.2.text ++ rest) = engineImportWithin false rest := by
  have free := apart.free
  rw [hasEngineImport, apart.uncommented_text, engineImportWithin_true, Bool.or_eq_false_iff] at free
  have absent : engineImportWithin begins (uncommented entry.2.front) = false := by
    have alone := engineImportWithin_wall isWall_brace begins (uncommented entry.2.front) []
    rw [engineImportWithin_of_starts free.1, free.2] at alone
    exact (Bool.or_eq_false_iff.1 alone.symm).1
  rw [apart.uncommented_text, List.append_assoc, List.singleton_append,
    engineImportWithin_wall isWall_brace, absent]
  rfl

theorem StandsApart.engineImportWithin_cons {entry : List Char × Block} (apart : StandsApart entry)
    (begins : Bool) (blocks : List (List Char × Block)) (rest : List Char) :
    engineImportWithin begins (Cutting.uncommentedText ⟨entry :: blocks, rest⟩) =
        (engineImportWithin begins (uncommented entry.1) ||
          engineImportWithin false (Cutting.uncommentedText ⟨blocks, rest⟩)) ∧
      ∃ later, engineImportWithin begins (Cutting.uncommentedOutside ⟨entry :: blocks, rest⟩) =
        (engineImportWithin begins (uncommented entry.1) ||
          engineImportWithin later (Cutting.uncommentedOutside ⟨blocks, rest⟩)) := by
  obtain ⟨later, split⟩ := apart.front.exists_begins begins
  rw [Cutting.uncommentedText_cons, Cutting.uncommentedOutside_cons, split,
    apart.engineImportWithin_append]
  exact ⟨rfl, later, split _⟩

structure Cutting.Apart (cutting : Cutting) : Prop where
  blocks : ∀ entry ∈ cutting.blocks, StandsApart entry
  behind : ∀ text ∈ (cutting.blocks.map Prod.fst ++ [cutting.rest]).tail,
    engineImportWithin false (uncommented text) = hasEngineImport text

instance (cutting : Cutting) : Decidable cutting.Apart :=
  decidable_of_iff ((∀ entry ∈ cutting.blocks, StandsApart entry) ∧
      ∀ text ∈ (cutting.blocks.map Prod.fst ++ [cutting.rest]).tail,
        engineImportWithin false (uncommented text) = hasEngineImport text)
    ⟨fun ⟨blocks, behind⟩ => ⟨blocks, behind⟩, fun ⟨blocks, behind⟩ => ⟨blocks, behind⟩⟩

-- Behind a block it does not matter whether a line begins there.
theorem engineImportWithin_behind {blocks : List (List Char × Block)}
    (apart : ∀ entry ∈ blocks, StandsApart entry)
    (behind : ∀ text ∈ blocks.map Prod.fst ++ [rest],
      engineImportWithin false (uncommented text) = hasEngineImport text) (begins begins' : Bool) :
    engineImportWithin begins (Cutting.uncommentedText ⟨blocks, rest⟩) =
      engineImportWithin begins' (Cutting.uncommentedOutside ⟨blocks, rest⟩) := by
  have free (text : List Char) (same : engineImportWithin false (uncommented text) =
      hasEngineImport text) (begins : Bool) :
      engineImportWithin begins (uncommented text) = hasEngineImport text := by
    cases begins with
    | false => exact same
    | true => rfl
  induction blocks generalizing begins begins' with
  | nil =>
    have last := free rest (behind rest (by simp))
    exact (last begins).trans (last begins').symm
  | cons entry blocks ih =>
    obtain ⟨first, others⟩ := List.forall_mem_cons.1 apart
    obtain ⟨here, later⟩ := List.forall_mem_cons.1 behind
    obtain ⟨whole, -⟩ := first.engineImportWithin_cons begins blocks rest
    obtain ⟨-, next, outside⟩ := first.engineImportWithin_cons begins' blocks rest
    rw [whole, outside, free _ here, free _ here, ih others later false next]

theorem hasEngineImport_cutBlocks {css : List Char} (apart : (cutBlocks css).Apart) :
    hasEngineImport css = hasEngineImport (cutBlocks css).outside := by
  obtain ⟨whole, outside⟩ := uncommented_cutFrom rfl (Place.between_top css) apart.blocks
  rw [hasEngineImport, hasEngineImport, whole, cutBlocks, outside]
  obtain ⟨blocks, behind⟩ := apart
  rw [cutBlocks] at blocks behind
  generalize cutFrom Place.top css = cutting at blocks behind
  obtain ⟨entries, rest⟩ := cutting
  cases entries with
  | nil => rfl
  | cons entry entries =>
    obtain ⟨first, others⟩ := List.forall_mem_cons.1 blocks
    obtain ⟨whole, next, outside⟩ := first.engineImportWithin_cons true entries rest
    rw [whole, outside, engineImportWithin_behind others behind false next]

end UtilityCss.Stylesheet
