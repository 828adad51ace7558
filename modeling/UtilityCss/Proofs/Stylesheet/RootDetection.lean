import UtilityCss.Proofs.Stylesheet.ThemeBoundaries

set_option autoImplicit false

namespace UtilityCss.Stylesheet

variable {c : Char} {text rest line piece : List Char}

structure Quiet (text : List Char) : Prop where
  closed : Inside.after .code text = .code
  settled : uncommented text = text

namespace Quiet

theorem nil : Quiet [] := ⟨rfl, rfl⟩

theorem cons_iff (quote : isQuoteMark c = false) (slash : c ≠ '/') :
    Quiet (c :: text) ↔ Quiet text := by
  have plain : ¬ commentMark <+: c :: text := by simp [comment_starts_iff, slash]
  have next : Inside.code.next c = .code := by simp [Inside.next, quote]
  have after : Inside.after .code (c :: text) = Inside.after .code text := by
    rw [Inside.after_cons fun _ => plain, next]
  have dropped : uncommented (c :: text) = c :: uncommented text := by
    rw [uncommented, dropComments_cons rfl fun _ => plain, next, uncommented]
  constructor
  · rintro ⟨closed, settled⟩
    exact ⟨after ▸ closed, (List.cons.inj (dropped ▸ settled)).2⟩
  · rintro ⟨closed, settled⟩
    exact ⟨after.trans closed, by rw [dropped, settled]⟩

theorem append (other : rest.head? ≠ some '*') (first : Quiet text) (second : Quiet rest) :
    Quiet (text ++ rest) where
  closed := by rw [Inside.after_append other, first.closed, second.closed]
  settled := by
    have dropped := @dropComments_append .code text rest other
    rw [first.closed] at dropped
    exact dropped.trans (congrArg₂ _ first.settled second.settled)

theorem of_concat (quote : isQuoteMark c = false) (slash : c ≠ '/') (star : c ≠ '*')
    (quiet : Quiet (text ++ [c])) : Quiet text := by
  have closed := Inside.code_of_after_concat quote slash star quiet.closed
  refine ⟨closed, ?_⟩
  have dropped := @dropComments_append .code text [c] (by simpa using star)
  have single := (@cons_iff c [] quote slash).2 nil
  rw [closed] at dropped
  have settled := dropped.symm.trans quiet.settled
  rwa [show dropComments .code [c] = [c] from single.settled, List.append_cancel_right_eq] at settled

theorem append_cons (quote : isQuoteMark c = false) (slash : c ≠ '/') (star : c ≠ '*')
    (first : Quiet text) (second : Quiet rest) : Quiet (text ++ c :: rest) :=
  first.append (by simpa using star) ((cons_iff quote slash).2 second)

theorem of_append_blank {blanks : List Char} (blank : Text.AllBlank blanks)
    (quiet : Quiet (text ++ blanks)) : Quiet text := by
  induction blanks using List.reverseRecOn with
  | nil => rwa [List.append_nil] at quiet
  | append_singleton blanks c ih =>
    obtain ⟨others, last⟩ := List.forall_mem_append.1 blank
    have light : isBlank c = true := last c List.mem_cons_self
    rw [← List.append_assoc] at quiet
    exact ih others (of_concat (endsName_of_blank light).quote (isBlank_ne light (by decide))
      (isBlank_ne light (by decide)) quiet)

theorem of_blank_append {blanks : List Char} (blank : Text.AllBlank blanks)
    (quiet : Quiet (blanks ++ text)) : Quiet text := by
  induction blanks with
  | nil => exact quiet
  | cons c blanks ih =>
    obtain ⟨light, others⟩ := Text.allBlank_cons.1 blank
    exact ih others
      ((cons_iff (endsName_of_blank light).quote (isBlank_ne light (by decide))).1 quiet)

theorem trim (quiet : Quiet text) : Quiet (Text.trim text) := by
  obtain ⟨before, after, blank, blankAfter, joined⟩ := Text.exists_trim text
  rw [joined] at quiet
  exact of_blank_append blank (of_append_blank blankAfter quiet)

theorem hasEngineImport (quiet : Quiet text) :
    hasEngineImport text = engineImportWithin true text := by
  rw [Stylesheet.hasEngineImport, quiet.settled]

theorem flatten {pieces : List (List Char)} (ended : Ended pieces)
    (quiet : ∀ piece ∈ pieces, Quiet piece) : Quiet pieces.flatten := by
  induction pieces with
  | nil => exact nil
  | cons piece pieces ih =>
    obtain ⟨first, others⟩ := List.forall_mem_cons.1 quiet
    obtain ⟨endedToo, rfl | ⟨inner, rfl⟩⟩ := ended.cases
    · rwa [List.flatten_singleton]
    · rw [List.flatten_cons, List.append_assoc, List.singleton_append]
      exact append_cons (by decide) (by decide) (by decide)
        (of_concat (by decide) (by decide) (by decide) first) (ih endedToo others)

theorem join {lines : List (List Char)} (quiet : ∀ line ∈ lines, Quiet line) :
    Quiet (Text.join ['\n'] lines) := by
  fun_induction Text.join ['\n'] lines with
  | case1 => exact nil
  | case2 line => exact quiet line List.mem_cons_self
  | case3 line lines _ ih =>
    obtain ⟨first, others⟩ := List.forall_mem_cons.1 quiet
    rw [List.append_assoc, List.singleton_append]
    exact append_cons (by decide) (by decide) (by decide) first (ih others)

end Quiet

structure StatementApart (piece : List Char) : Prop extends Quiet piece where
  target : startsEngineName piece = false

instance (piece : List Char) : Decidable (StatementApart piece) :=
  decidable_of_iff (Inside.after .code piece = .code ∧ uncommented piece = piece ∧
      startsEngineName piece = false)
    ⟨fun ⟨closed, settled, target⟩ => ⟨⟨closed, settled⟩, target⟩,
      fun ⟨⟨closed, settled⟩, target⟩ => ⟨closed, settled, target⟩⟩

def lineStatements (css : List Char) : List (List Char) :=
  (Text.lines (uncommented (cutBlocks css).outside)).flatMap statementsOf

theorem flatten_statementsOf (line : List Char) : (statementsOf line).flatten = line :=
  flatten_splitStatements 0 none line

theorem directive_eq_engineImport_iff (quiet : Quiet piece) :
    directive? piece = some .engineImport ↔
      importMark <+: Text.trim piece ∧ hasEngineImport piece = true := by
  have same : hasEngineImport (Text.trim piece) = hasEngineImport piece := by
    rw [quiet.trim.hasEngineImport, quiet.hasEngineImport, engineImportWithin_trim]
  rw [← same]
  unfold directive?
  dsimp only
  cases marked : importMark.isPrefixOf? (Text.trim piece) with
  | some rest =>
    have begins : importMark <+: Text.trim piece := ⟨rest, (Text.eq_of_isPrefixOf? marked).symm⟩
    simp only [begins, true_and]
    split_ifs with engine
    · simp [engine]
    · simp [engine]
  | none =>
    have other : ¬ importMark <+: Text.trim piece := by
      rintro ⟨rest, whole⟩
      rw [List.isPrefixOf?_eq_some_iff_append_eq.2 whole] at marked
      cases marked
    simp only [other, false_and, iff_false]
    split <;> simp_all [readSource?]

def plainStatements (line : List Char) : List (List Char) :=
  (statementsOf line).filter fun piece => (directive? piece).isNone

theorem ended_plainStatements (line : List Char) : Ended (plainStatements line) :=
  (ended_statementsOf line).sublist List.filter_sublist

theorem kept_readLine (line : List Char) :
    let rest := (plainStatements line).flatten
    (readLine line).kept = some rest ∨ (readLine line).kept = some (Text.trim rest) ∨
      (readLine line).kept = none ∧ Text.trim rest = [] := by
  intro rest
  have flat : (((statementsOf line).map fun piece => (directive? piece, piece)).filter
      fun piece => piece.1.isNone).flatMap Prod.snd = rest := by
    rw [List.filter_map, List.flatMap_map, List.flatMap_id']
    rfl
  unfold readLine
  dsimp only
  rw [flat]
  split_ifs with absent blank
  · left
    have all : ∀ piece ∈ statementsOf line, (directive? piece).isNone = true := by
      simpa using absent
    have whole : rest = line := by
      show (plainStatements line).flatten = line
      rw [plainStatements, List.filter_eq_self.2 all, flatten_statementsOf]
    rw [whole]
  · exact .inr (.inr ⟨rfl, List.isEmpty_iff.1 blank⟩)
  · exact .inr (.inl rfl)

variable {css : List Char}

theorem StatementApart.flatten {pieces : List (List Char)} (ended : Ended pieces)
    (apart : ∀ piece ∈ pieces, StatementApart piece) : StatementApart pieces.flatten where
  toQuiet := Quiet.flatten ended fun piece member => (apart piece member).toQuiet
  target := startsEngineName_flatten ended fun piece member => (apart piece member).target

theorem StatementApart.trim (apart : StatementApart text) : StatementApart (Text.trim text) where
  toQuiet := apart.toQuiet.trim
  target := (startsEngineName_trim text).trans apart.target

theorem StatementApart.of_kept (apart : ∀ piece ∈ statementsOf line, StatementApart piece)
    (found : (readLine line).kept = some text) : StatementApart text := by
  have whole : StatementApart (plainStatements line).flatten :=
    .flatten (ended_plainStatements line) fun piece member => apart piece (List.mem_filter.1 member).1
  rcases kept_readLine line with kept | kept | ⟨kept, -⟩ <;> rw [kept] at found
  · exact Option.some.inj found ▸ whole
  · exact Option.some.inj found ▸ whole.trim
  · cases found

theorem engineImportWithin_kept (line : List Char) :
    (readLine line).kept.any (engineImportWithin true) =
      (plainStatements line).any (engineImportWithin true) := by
  rw [← engineImportWithin_flatten (ended_plainStatements line)]
  rcases kept_readLine line with kept | kept | ⟨kept, blank⟩ <;> rw [kept]
  · rfl
  · exact engineImportWithin_trim _
  · rw [← engineImportWithin_trim, blank]
    rfl

/-- The statements of a stylesheet stand apart, and its theme blocks do. -/
structure StandsClear (css : List Char) : Prop where
  blocks : (cutBlocks css).Apart
  statements : ∀ piece ∈ lineStatements css, StatementApart piece

instance (css : List Char) : Decidable (StandsClear css) :=
  decidable_of_iff ((cutBlocks css).Apart ∧ ∀ piece ∈ lineStatements css, StatementApart piece)
    ⟨fun ⟨blocks, statements⟩ => ⟨blocks, statements⟩,
      fun ⟨blocks, statements⟩ => ⟨blocks, statements⟩⟩

theorem StandsClear.inLine (clear : StandsClear css)
    (isLine : line ∈ Text.lines (uncommented (cutBlocks css).outside)) :
    ∀ piece ∈ statementsOf line, StatementApart piece := fun piece member =>
  clear.statements piece (List.mem_flatMap.2 ⟨line, isLine, member⟩)

theorem StandsClear.hasEngineImport_iff (clear : StandsClear css) :
    hasEngineImport css = true ↔ ∃ piece ∈ lineStatements css, hasEngineImport piece = true := by
  have targets : ∀ line ∈ Text.lines (uncommented (cutBlocks css).outside),
      startsEngineName line = false := fun line isLine => by
    have whole := StatementApart.flatten (ended_statementsOf line) (clear.inLine isLine)
    rw [flatten_statementsOf] at whole
    exact whole.target
  have lines : ∀ line, engineImportWithin true line =
      (statementsOf line).any (engineImportWithin true) := fun line => by
    rw [← engineImportWithin_flatten (ended_statementsOf line), flatten_statementsOf]
  rw [hasEngineImport_cutBlocks clear.blocks, hasEngineImport, engineImportWithin_lines targets,
    funext lines, ← List.any_flatMap, List.any_eq_true]
  exact exists_congr fun piece => and_congr_right fun member => by
    rw [(clear.statements piece member).hasEngineImport]

theorem StandsClear.hasEngineImport_bodyOf_iff (clear : StandsClear css) :
    hasEngineImport (bodyOf (readLines css)) = true ↔
      ∃ piece ∈ lineStatements css, hasEngineImport piece = true ∧ directive? piece = none := by
  have kept : ∀ text ∈ (readLines css).filterMap ReadLine.kept, StatementApart text := by
    intro text member
    obtain ⟨read, isRead, found⟩ := List.mem_filterMap.1 member
    obtain ⟨line, isLine, rfl⟩ := List.mem_map.1 isRead
    exact .of_kept (clear.inLine isLine) found
  have quiet := Quiet.join fun text member => (kept text member).toQuiet
  rw [bodyOf, Text.trim_ended, quiet.trim.hasEngineImport, engineImportWithin_trim,
    engineImportWithin_join fun text member => (kept text member).target]
  have lines : ((readLines css).filterMap ReadLine.kept).any (engineImportWithin true) =
      ((lineStatements css).filter fun piece => (directive? piece).isNone).any
        (engineImportWithin true) := by
    have each := funext engineImportWithin_kept
    rw [readLines, List.filterMap_map, List.any_filterMap, lineStatements, List.filter_flatMap,
      List.any_flatMap]
    exact congrArg _ each
  rw [lines, List.any_eq_true]
  refine exists_congr fun piece => ?_
  rw [List.mem_filter, Option.isNone_iff_eq_none]
  constructor
  · rintro ⟨⟨member, plain⟩, found⟩
    exact ⟨member, by rwa [(clear.statements piece member).hasEngineImport], plain⟩
  · rintro ⟨member, found, plain⟩
    rw [(clear.statements piece member).hasEngineImport] at found
    exact ⟨⟨member, plain⟩, found⟩

def TakesEngineImport (css : List Char) : Prop :=
  .engineImport ∈ (readLines css).flatMap ReadLine.directives

theorem directives_readLines (css : List Char) :
    (readLines css).flatMap ReadLine.directives = (lineStatements css).filterMap directive? := by
  have each := funext directives_readLine
  rw [readLines, List.flatMap_map, lineStatements, List.filterMap_flatMap]
  exact congrArg (fun read => List.flatMap read _) each

theorem StandsClear.takesEngineImport_iff (clear : StandsClear css) :
    TakesEngineImport css ↔ ∃ piece ∈ lineStatements css,
      hasEngineImport piece = true ∧ importMark <+: Text.trim piece := by
  rw [TakesEngineImport, directives_readLines, List.mem_filterMap]
  exact exists_congr fun piece => and_congr_right fun member => by
    rw [directive_eq_engineImport_iff (clear.statements piece member).toQuiet, and_comm]

/-- A stylesheet whose statements and theme blocks stand apart is a root exactly if one of its
statements holds an import of the engine, which stays in the body if the statement is no directive.
-/
theorem isRoot_iff_statement (path : Path) (css : String) (clear : StandsClear css.toList) :
    ((parse path css).isRoot = true ↔
      ∃ piece ∈ lineStatements css.toList, hasEngineImport piece = true) ∧
    (TakesEngineImport css.toList ↔ ∃ piece ∈ lineStatements css.toList,
      hasEngineImport piece = true ∧ importMark <+: Text.trim piece) ∧
    (usesEngine (parse path css).body = true ↔ ∃ piece ∈ lineStatements css.toList,
      hasEngineImport piece = true ∧ directive? piece = none) ∧
    ((∀ piece ∈ lineStatements css.toList, hasEngineImport piece = true →
        importMark <+: Text.trim piece) →
      ((parse path css).isRoot = true ↔ TakesEngineImport css.toList) ∧
        usesEngine (parse path css).body = false) := by
  have root := clear.hasEngineImport_iff
  have body := clear.hasEngineImport_bodyOf_iff
  have bodyText : usesEngine (parse path css).body = hasEngineImport (bodyOf (readLines css.toList)) :=
    congrArg hasEngineImport String.toList_ofList
  rw [bodyText, show (parse path css).isRoot = hasEngineImport css.toList from rfl]
  refine ⟨root, clear.takesEngineImport_iff, body, fun begins => ⟨?_, ?_⟩⟩
  · rw [root, clear.takesEngineImport_iff]
    exact exists_congr fun piece => and_congr_right fun member =>
      ⟨fun found => ⟨found, begins piece member found⟩, And.left⟩
  · rw [Bool.eq_false_iff, Ne, body]
    rintro ⟨piece, member, found, plain⟩
    have taken := (directive_eq_engineImport_iff (clear.statements piece member).toQuiet).2
      ⟨begins piece member found, found⟩
    rw [plain] at taken
    cases taken

-- Imports of the engine behind another statement, in front of a rule and behind theme blocks, and
-- the name of the engine in a comment, in a string and in a rule.
private def rootPage : String :=
  "/* @import \"windsmith\"; */ @source \"./src/**/*.html\"; @import url( 'windsmith/base' ) x;\n" ++
  "@theme \x7b --a: \"; windsmith\"; /* \x7d ' */ \x7d\n" ++
  "  @import \"windsmith/utilities\"; .a \x7b color: red \x7d\n" ++
  ".b::after \x7b content: \"windsmith\"; \x7d @theme \x7b --b: 2; \x7d .windsmith \x7b \x7d\n"

theorem root_page_takes_engine_imports :
    StandsClear rootPage.toList ∧
      ((parse ⟨"/r/a.css"⟩ rootPage).isRoot = true ↔ TakesEngineImport rootPage.toList) ∧
      usesEngine (parse ⟨"/r/a.css"⟩ rootPage).body = false ∧
      (parse ⟨"/r/a.css"⟩ rootPage).isRoot = true := by
  have clear : StandsClear rootPage.toList := by decide +kernel
  obtain ⟨-, -, -, agree⟩ := isRoot_iff_statement ⟨"/r/a.css"⟩ rootPage clear
  obtain ⟨same, clean⟩ := agree (by decide +kernel)
  exact ⟨clear, same, clean, by decide +kernel⟩

-- An import that goes over a line makes the stylesheet a root, and stays in its body.
example : (parse ⟨"/r/a.css"⟩ "@import\n\"windsmith\";\n").isRoot = true ∧
    (parse ⟨"/r/a.css"⟩ "@import\n\"windsmith\";\n").body = "@import\n\"windsmith\";" := by
  decide +kernel

end UtilityCss.Stylesheet
