import UtilityCss.Proofs.Stylesheet.RootDetection

set_option autoImplicit false

namespace UtilityCss.Stylesheet

/-- What a statement is good for: the ink that it adds to the body, or the one thing that it says.
-/
inductive Contribution where
  | bodyText (ink : List Char)
  | engineImport
  | fileImport (entry : SheetImport)
  | source (pattern : SourcePattern)
  | config (file : Path)
  deriving DecidableEq, Repr

namespace Contribution

/-- The contribution of a statement in a stylesheet of a directory. -/
def ofStatement (base : Path) (statement : List Char) : Contribution :=
  match directive? statement with
  | none => .bodyText (Text.ink statement)
  | some .engineImport => .engineImport
  | some (.importFile target written) =>
    .fileImport ⟨written, if namesFile target then some (base.join ⟨target⟩).normalize else none, false⟩
  | some (.source pattern negated) => .source ⟨pattern, negated, base⟩
  | some (.config file) => .config (base.join ⟨file⟩)

def ink : Contribution → List Char
  | .bodyText ink => ink
  | _ => []

def fileImport? : Contribution → Option SheetImport
  | .fileImport entry => some entry
  | _ => none

def source? : Contribution → Option SourcePattern
  | .source pattern => some pattern
  | _ => none

def config? : Contribution → Option Path
  | .config file => some file
  | _ => none

variable (base : Path) (statement : List Char)

theorem fileImport?_ofStatement : (ofStatement base statement).fileImport? =
    (directive? statement).bind (importOf base) := by
  rw [ofStatement]
  rcases directive? statement with _ | _ | _ | _ | _ <;> rfl

theorem source?_ofStatement : (ofStatement base statement).source? =
    (directive? statement).bind (sourceOf base) := by
  rw [ofStatement]
  rcases directive? statement with _ | _ | _ | _ | _ <;> rfl

theorem config?_ofStatement : (ofStatement base statement).config? =
    (directive? statement).bind (configOf base) := by
  rw [ofStatement]
  rcases directive? statement with _ | _ | _ | _ | _ <;> rfl

end Contribution

def plainInk (statement : List Char) : List Char :=
  if (directive? statement).isNone then Text.ink statement else []

theorem ink_plainStatements (line : List Char) :
    Text.ink (plainStatements line).flatten = (statementsOf line).flatMap plainInk := by
  rw [Text.ink_flatten, plainStatements]
  induction statementsOf line with
  | nil => rfl
  | cons piece rest ih => by_cases plain : (directive? piece).isNone <;> simp [plainInk, plain, ih]

theorem ink_kept (line : List Char) :
    (readLine line).kept.toList.flatMap Text.ink = (statementsOf line).flatMap plainInk := by
  rw [← ink_plainStatements]
  rcases kept_readLine line with kept | kept | ⟨kept, blank⟩ <;> rw [kept]
  · simp
  · simp [Text.ink_trim]
  · rw [← Text.ink_trim, blank]
    rfl

theorem ink_bodyOf (css : List Char) :
    Text.ink (bodyOf (readLines css)) = (lineStatements css).flatMap plainInk := by
  have feed : Text.ink ['\n'] = [] := by decide
  calc Text.ink (bodyOf (readLines css))
    _ = ((readLines css).filterMap ReadLine.kept).flatMap Text.ink := by
      rw [bodyOf, Text.ink_trim, Text.ink_flatMap]
      simp [feed]
    _ = (Text.lines (uncommented (cutBlocks css).outside)).flatMap fun line =>
          (readLine line).kept.toList.flatMap Text.ink := by
      rw [readLines, List.filterMap_map, List.filterMap_eq_flatMap_toList, List.flatMap_assoc]
      rfl
    _ = (lineStatements css).flatMap plainInk := by
      simp only [ink_kept, lineStatements, List.flatMap_assoc]

theorem Contribution.ink_ofStatement (base : Path) (statement : List Char) :
    (ofStatement base statement).ink = plainInk statement := by
  rw [ofStatement, plainInk]
  rcases directive? statement with _ | _ | _ | _ | _ <;> rfl

/-- Outside the theme blocks and comments, the statements of each line make up the line. Each of
them contributes one thing, in the order in which they are written: the body has the ink of those
that are no directives and no other, and the entries of the stylesheet are those of the directives.
-/
theorem parse_contributions (path : Path) (css : String) :
    let content := uncommented (cutBlocks css.toList).outside
    let statements := (Text.lines content).flatMap statementsOf
    let given := statements.map (Contribution.ofStatement path.directory)
    (∀ line ∈ Text.lines content, (statementsOf line).flatten = line) ∧
      statements.flatMap Text.ink = Text.ink content ∧
      Text.ink (parse path css).body.toList = given.flatMap Contribution.ink ∧
      (parse path css).imports = given.filterMap Contribution.fileImport? ∧
      (parse path css).sources = given.filterMap Contribution.source? ∧
      (parse path css).configs = given.filterMap Contribution.config? := by
  intro content statements given
  have directives : (readLines css.toList).flatMap ReadLine.directives =
      statements.filterMap directive? := directives_readLines css.toList
  refine ⟨fun line _ => flatten_statementsOf line, ?_, ?_, ?_, ?_, ?_⟩
  · have lines : ∀ line ∈ Text.lines content, (statementsOf line).flatMap Text.ink = Text.ink line :=
      fun line _ => by rw [← Text.ink_flatten, flatten_statementsOf]
    rw [List.flatMap_assoc, List.flatMap_congr lines, Text.ink_lines]
  · have body : (parse path css).body.toList = bodyOf (readLines css.toList) := String.toList_ofList
    rw [body, ink_bodyOf, List.flatMap_map]
    exact List.flatMap_congr fun piece _ => (Contribution.ink_ofStatement _ piece).symm
  · change ((readLines css.toList).flatMap ReadLine.directives).filterMap _ = _
    rw [directives, List.filterMap_filterMap, List.filterMap_map]
    exact List.filterMap_congr fun piece _ => (Contribution.fileImport?_ofStatement _ piece).symm
  · change ((readLines css.toList).flatMap ReadLine.directives).filterMap _ = _
    rw [directives, List.filterMap_filterMap, List.filterMap_map]
    exact List.filterMap_congr fun piece _ => (Contribution.source?_ofStatement _ piece).symm
  · change ((readLines css.toList).flatMap ReadLine.directives).filterMap _ = _
    rw [directives, List.filterMap_filterMap, List.filterMap_map]
    exact List.filterMap_congr fun piece _ => (Contribution.config?_ofStatement _ piece).symm

end UtilityCss.Stylesheet
