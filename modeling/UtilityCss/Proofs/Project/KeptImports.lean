import UtilityCss.Project.Artifact
import UtilityCss.Proofs.Stylesheet.Statements
import UtilityCss.Stylesheet.Imports

set_option autoImplicit false

namespace UtilityCss

namespace Stylesheet

variable {tree : FileTree} {path : Path} {css statement : String} {sheet : Stylesheet}
  {entry : SheetImport} {depth : Nat} {chain : List Path}

/-- A text is a statement of a line of a stylesheet, outside its theme blocks and comments. It ends
in its semicolon, or it is what its line ends with. -/
def IsTaken (css statement : String) : Prop :=
  ∃ (line piece : List Char) (before after : List (List Char)),
    line ∈ Text.lines (uncommented (cutBlocks css.toList).outside) ∧
    statementsOf line = before ++ piece :: after ∧ statement.toList = Text.trim piece ∧
    statement ≠ "" ∧ (IsWhole statement.toList ∨ after = [] ∧ IsOpen statement.toList)

inductive IsMadeFrom : (String → Prop) → Stylesheet → Prop where
  | parse (path : Path) (css : String) : IsMadeFrom (· = css) (parse path css)
  | read {tree : FileTree} {path : Path} {sheet : Stylesheet} (found : read tree path = .ok sheet) :
    IsMadeFrom (fun css => ∃ file, tree.readText file = .ok css) sheet

theorem IsTaken.trimmed (taken : IsTaken css statement) : Text.Trimmed statement.toList := by
  obtain ⟨line, piece, before, after, -, -, same, -⟩ := taken
  rw [same]
  exact Text.trimmed_trim piece

theorem eq_of_importFile {piece : List Char} {target : String}
    (found : directive? piece = some (.importFile target statement)) :
    statement.toList = Text.trim piece ∧ statement ≠ "" := by
  unfold directive? at found
  dsimp only at found
  split at found
  · next rest _ _ marked =>
    split_ifs at found with engine
    · cases found
    obtain ⟨name, -, same⟩ := Option.map_eq_some_iff.1 found
    obtain ⟨-, rfl⟩ : _ ∧ String.ofList (Text.trim piece) = statement := by simpa using same
    refine ⟨String.toList_ofList, ?_⟩
    have text := Text.eq_of_isPrefixOf? marked
    rw [text]
    simp [importMark]
  · next rest _ _ =>
    unfold readSource? at found
    obtain ⟨name, -, same⟩ := Option.map_eq_some_iff.1 found
    cases same
  · obtain ⟨name, -, same⟩ := Option.map_eq_some_iff.1 found
    cases same
  · cases found

theorem isTaken_of_parse : ∀ entry ∈ (parse path css).imports, IsTaken css entry.statement := by
  intro entry member
  obtain ⟨directive, isDirective, made⟩ := List.mem_filterMap.1 member
  obtain ⟨line, isLine, inLine⟩ := List.mem_flatMap.1 isDirective
  obtain ⟨text, isText, rfl⟩ := List.mem_map.1 isLine
  obtain ⟨piece, isPiece, found⟩ := List.mem_filterMap.1 (directives_readLine text ▸ inLine)
  cases directive with
  | importFile target statement =>
    obtain rfl := Option.some.inj made
    obtain ⟨same, nonempty⟩ := eq_of_importFile found
    obtain ⟨before, after, split⟩ := List.append_of_mem isPiece
    refine ⟨text, piece, before, after, isText, split, same, nonempty, ?_⟩
    rw [same]
    exact (isWhole_or_last split).imp IsWhole.trim (And.imp_right IsOpen.trim)
  | engineImport | source | config => cases made

theorem imports_foldl_append (contents : List Content) (start : Content) :
    (contents.foldl Content.append start).imports =
      start.imports ++ contents.flatMap Content.imports := by
  induction contents generalizing start with
  | nil => simp
  | cons content rest ih => simp [ih, Content.append]

def IsTakenIn (tree : FileTree) (statement : String) : Prop :=
  ∃ css, (∃ file, tree.readText file = .ok css) ∧ IsTaken css statement

theorem isTakenIn_of_ofImport (taken : IsTakenIn tree entry.statement) :
    ∀ other ∈ (Content.ofImport entry).imports, IsTakenIn tree other.statement :=
  List.forall_mem_singleton.2 taken

theorem isTakenIn_of_readText (text : tree.readText path = .ok css) :
    ∀ entry ∈ (parse path css).imports, IsTakenIn tree entry.statement :=
  fun entry member => ⟨css, ⟨path, text⟩, isTaken_of_parse entry member⟩

theorem isTakenIn_of_contribution (depth : Nat) (chain : List Path) (entry : SheetImport)
    (taken : IsTakenIn tree entry.statement) :
    ∀ other ∈ (contribution tree depth chain entry).imports, IsTakenIn tree other.statement := by
  induction depth generalizing chain entry with
  | zero =>
    unfold contribution
    split
    · exact isTakenIn_of_ofImport taken
    · split_ifs
      · exact isTakenIn_of_ofImport taken
      · split
        · exact isTakenIn_of_ofImport taken
        · exact isTakenIn_of_ofImport taken
        · contradiction
  | succ depth ih =>
    unfold contribution
    split
    · exact isTakenIn_of_ofImport taken
    · split_ifs
      · exact isTakenIn_of_ofImport taken
      · split
        · exact isTakenIn_of_ofImport taken
        · contradiction
        · next css depth' text deeper =>
          obtain rfl := Nat.succ.inj deeper
          simp only [Content.append, Content.ofSheet, imports_foldl_append, Content.empty,
            List.append_nil, List.nil_append]
          refine List.forall_mem_append.2 ⟨fun other member => ?_, isTakenIn_of_ofImport taken⟩
          obtain ⟨content, isContent, inside⟩ := List.mem_flatMap.1 member
          obtain ⟨inner, isInner, rfl⟩ := List.mem_map.1 isContent
          exact ih _ inner (isTakenIn_of_readText text inner isInner) other inside

theorem isTaken_of_isMadeFrom {texts : String → Prop} (made : IsMadeFrom texts sheet) :
    ∀ statement ∈ sheet.keptImports, ∃ css, texts css ∧ IsTaken css statement := by
  have all : ∀ entry ∈ sheet.imports, ∃ css, texts css ∧ IsTaken css entry.statement := by
    cases made with
    | parse path css => exact fun entry member => ⟨css, rfl, isTaken_of_parse entry member⟩
    | @read tree path sheet found =>
      unfold Stylesheet.read at found
      split at found
      · cases found
      · next css text =>
        obtain rfl := Except.ok.inj found
        intro entry member
        simp only [flatten, withContent, Content.append, Content.ofSheet, imports_foldl_append,
          Content.empty, List.append_nil, List.nil_append] at member
        obtain ⟨content, isContent, inside⟩ := List.mem_flatMap.1 member
        obtain ⟨inner, isInner, rfl⟩ := List.mem_map.1 isContent
        exact isTakenIn_of_contribution _ _ inner (isTakenIn_of_readText text inner isInner) entry
          inside
  intro statement member
  obtain ⟨entry, isEntry, rfl⟩ := List.mem_map.1 member
  exact all entry (List.mem_filter.1 isEntry).1

end Stylesheet

def EndsLine (text : String) : Prop := text = "" ∨ text.toList.getLast? = some '\n'

theorem endsLine_append {second : String} (last : second.toList.getLast? = some '\n')
    (first : String) : EndsLine (first ++ second) := by
  right
  rw [String.toList_append, List.getLast?_append, last]
  rfl

theorem EndsLine.append {first second : String} (ended : EndsLine first)
    (endedToo : EndsLine second) : EndsLine (first ++ second) := by
  rcases endedToo with rfl | last
  · simpa using ended
  · exact endsLine_append last first

theorem endsLine_join {texts : List String} (ended : ∀ text ∈ texts, EndsLine text) :
    EndsLine (String.join texts) := by
  induction texts with
  | nil => exact .inl rfl
  | cons text rest ih =>
    obtain ⟨first, others⟩ := List.forall_mem_cons.1 ended
    rw [String.join_cons]
    exact first.append (ih others)

theorem endsLine_manifest {theme : Theme} {pool : CandidatePool} {generated : String}
    (made : Generator.manifest theme pool = .ok generated) : EndsLine generated := by
  obtain rfl := Except.ok.inj made
  have rules : EndsLine (String.join (pool.items.map Generator.rule)) := by
    refine endsLine_join (List.forall_mem_map.2 fun candidate _ => ?_)
    exact endsLine_append (by decide) _
  refine EndsLine.append ?_ rules
  unfold Generator.rootRule
  split_ifs
  · exact .inl rfl
  · exact endsLine_append (by decide) _

namespace Artifact

open Stylesheet

variable {sheet : Stylesheet} {theme : Theme} {pool : CandidatePool} {revision : Nat}

def following (sheet : Stylesheet) (generated : String) : String :=
  generated ++ if sheet.body = "" then "" else sheet.body ++ "\n"

theorem textOf_eq {generated : String} (ended : EndsLine generated) :
    textOf sheet generated = importText sheet ++ following sheet generated := by
  have lines : EndsLine (importText sheet) := by
    exact endsLine_join (List.forall_mem_map.2 fun statement _ => endsLine_append (by decide) _)
  have whole := lines.append ended
  rw [textOf, following, bodyText, String.append_assoc]
  congr 1
  split_ifs
  · rfl
  · rfl
  · contradiction

def linesText (statements : List String) : String := String.join (statements.map (· ++ "\n"))

theorem linesText_cons_append (statement : String) (others : List String) (rest : List Char) :
    (linesText (statement :: others)).toList ++ rest =
      statement.toList ++ '\n' :: ((linesText others).toList ++ rest) := by
  rw [linesText, List.map_cons, String.join_cons, String.toList_append, String.toList_append,
    List.append_assoc, List.append_assoc]
  rfl

theorem statementTexts_whole_line {statement : List Char} (whole : IsWhole statement)
    (trimmed : Text.Trimmed statement) (rest : List Char) :
    statementTexts (statement ++ '\n' :: rest) = statement :: statementTexts rest := by
  rw [statementTexts_append whole trimmed, statementTexts_blank_cons (by decide)]

theorem statementTexts_linesText {statements : List String} (rest : List Char)
    (taken : ∀ statement ∈ statements, ∃ css, IsTaken css statement)
    (whole : ∀ statement ∈ statements, IsWhole statement.toList) :
    statementTexts ((linesText statements).toList ++ rest) =
      statements.map String.toList ++ statementTexts rest := by
  induction statements with
  | nil => rfl
  | cons statement others ih =>
    obtain ⟨first, wholeOthers⟩ := List.forall_mem_cons.1 whole
    obtain ⟨own, takenOthers⟩ := List.forall_mem_cons.1 taken
    obtain ⟨css, own⟩ := own
    rw [linesText_cons_append, statementTexts_whole_line first own.trimmed,
      ih takenOthers wholeOthers]
    rfl

theorem isWhole_of_statementTexts {statements : List String} {rest : List Char}
    {texts : List (List Char)} (spoken : ¬ Text.AllBlank rest)
    (taken : ∀ statement ∈ statements, ∃ css, IsTaken css statement)
    (same : statementTexts ((linesText statements).toList ++ rest) =
      statements.map String.toList ++ texts) :
    ∀ statement ∈ statements, IsWhole statement.toList := by
  induction statements with
  | nil => simp
  | cons statement others ih =>
    obtain ⟨⟨css, own⟩, takenOthers⟩ := List.forall_mem_cons.1 taken
    rw [linesText_cons_append, List.map_cons, List.cons_append] at same
    obtain ⟨-, -, -, -, -, -, -, nonempty, whole | ⟨-, stays⟩⟩ := id own
    · rw [statementTexts_whole_line whole own.trimmed, List.cons.injEq] at same
      exact List.forall_mem_cons.2 ⟨whole, ih takenOthers same.2⟩
    · have blank := allBlank_of_statementTexts stays (by simpa using nonempty) own.trimmed same
      exact absurd (fun c member => blank c (List.mem_append_right _ member)) spoken

/-- The output falls into the kept imports, each a statement of its own, and the statements of what
follows them. -/
def KeepsApart (sheet : Stylesheet) (generated : String) : Prop :=
  statementTexts (linesText sheet.keptImports ++ following sheet generated).toList =
    sheet.keptImports.map String.toList ++ statementTexts (following sheet generated).toList

/-- The output of a root: the kept imports, the generated rules and the body. An import without its
semicolon is the open end of its line, and takes along what follows unless nothing does. -/
theorem statementTexts_render {texts : String → Prop} (sheet : Stylesheet)
    (made : IsMadeFrom texts sheet) (root : sheet.isRoot = true) (theme : Theme)
    (pool : CandidatePool) (revision : Nat) :
    ∃ generated, Generator.manifest theme pool = .ok generated ∧
      render Generator.manifest sheet theme pool revision =
        .ok ⟨linesText sheet.keptImports ++ following sheet generated, revision, pool.revision,
          false⟩ ∧
      (∀ statement ∈ sheet.keptImports, ∃ css, texts css ∧ IsTaken css statement) ∧
      ((∀ statement ∈ sheet.keptImports, IsWhole statement.toList) → KeepsApart sheet generated) ∧
      (¬ Text.AllBlank (following sheet generated).toList → KeepsApart sheet generated →
        ∀ statement ∈ sheet.keptImports, IsWhole statement.toList) := by
  have origins := isTaken_of_isMadeFrom made
  have taken : ∀ statement ∈ sheet.keptImports, ∃ css, IsTaken css statement :=
    fun statement member => (origins statement member).imp fun _ => And.right
  obtain ⟨generated, generates⟩ : ∃ generated, Generator.manifest theme pool = .ok generated :=
    ⟨_, rfl⟩
  refine ⟨generated, generates, ?_, origins, ?_, ?_⟩
  · rw [render, if_pos root, generates]
    show Except.ok _ = _
    rw [textOf_eq (endsLine_manifest generates)]
    rfl
  · rw [KeepsApart, String.toList_append]
    exact statementTexts_linesText _ taken
  · rw [KeepsApart, String.toList_append]
    exact fun spoken => isWhole_of_statementTexts spoken taken

-- A page with imports that end in their semicolons, and one whose import goes on in the next line.
private def wholePage : String :=
  "@import \"windsmith\"; @import url(https://x/a;b.css) screen;\n@import \"//y/c.css\";\n.a \x7b \x7d\n"

private def brokenPage : String :=
  "@import \"windsmith\";\n@import url(\"https://x/a.css\")\n  screen;\n"

theorem whole_page_keeps_apart :
    (∃ generated, Generator.manifest ⟨[]⟩ ⟨["flex"], 1⟩ = .ok generated ∧
      render Generator.manifest (parse ⟨"/r/a.css"⟩ wholePage) ⟨[]⟩ ⟨["flex"], 1⟩ 1 =
        .ok ⟨linesText ["@import url(https://x/a;b.css) screen;", "@import \"//y/c.css\";"] ++
          following (parse ⟨"/r/a.css"⟩ wholePage) generated, 1, 1, false⟩ ∧
      KeepsApart (parse ⟨"/r/a.css"⟩ wholePage) generated) ∧
    ∃ generated, Generator.manifest ⟨[]⟩ ⟨["flex"], 1⟩ = .ok generated ∧
      ¬ KeepsApart (parse ⟨"/r/a.css"⟩ brokenPage) generated := by
  constructor
  · obtain ⟨generated, generates, rendered, -, apart, -⟩ := statementTexts_render
      (parse ⟨"/r/a.css"⟩ wholePage) (.parse _ _) (by decide +kernel) ⟨[]⟩ ⟨["flex"], 1⟩ 1
    have kept : (parse ⟨"/r/a.css"⟩ wholePage).keptImports =
        ["@import url(https://x/a;b.css) screen;", "@import \"//y/c.css\";"] := by decide +kernel
    rw [kept] at rendered
    exact ⟨generated, generates, rendered, apart (by decide +kernel)⟩
  · obtain ⟨generated, generates, -, -, -, whole⟩ := statementTexts_render
      (parse ⟨"/r/a.css"⟩ brokenPage) (.parse _ _) (by decide +kernel) ⟨[]⟩ ⟨["flex"], 1⟩ 1
    refine ⟨generated, generates, fun apart => ?_⟩
    obtain rfl := Except.ok.inj generates
    have all := whole (by decide +kernel) apart
    exact absurd all (by decide +kernel)

end Artifact

end UtilityCss
