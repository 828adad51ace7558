import UtilityCss.Proofs.Ignore.Views
import UtilityCss.Proofs.Path.Relative
import UtilityCss.Proofs.Source.ProjectRoot

set_option autoImplicit false

namespace UtilityCss

open Source UtilityCss.Path FileTree

/-- A path of a directory that the search for sources takes as it is meant. It goes up at most one
step where no name is left to go up from, its normal form is not empty, and none of its characters
means something in a pattern. -/
structure Path.Addresses (tree : FileTree) (p : Path) (dir : List String) : Prop where
  located : tree.locate p = .ok dir
  few : p.location.stepsUp ≤ 1
  spoken : p.normalize.spelling ≠ ""
  plain : ∀ c ∈ p.normalize.spelling.toList, Glob.IsPlain c ∧ c ≠ '\x7d'

structure SourceSelector.Searches (tree : FileTree) (p : Path) (selector : SourceSelector) :
    Prop where
  walks : selector.walks = [⟨p.normalize, true⟩]
  ignoreFiles : selector.ignoreFiles = (SourceSelector.ignoreFile? tree p).toList
  selects?_eq : ∀ {names : List String}, names ≠ [] → (∀ name ∈ names, IsName name) →
    selector.selects? (names.foldl child p.normalize) =
      if isLeftOut (names.foldl child p.normalize) then some false
      else (selector.isIgnored? (names.foldl child p.normalize)).map (!·)

variable {tree : FileTree} {p : Path} {texts names dir : List String} {absolute : Bool}

namespace Path

theorem normalize_textsOf {place : Location} (isReading : IsReading place) (absolute : Bool) :
    (spelled absolute (textsOf place)).normalize = spelled absolute (textsOf place) := by
  rw [normalize_eq, isAbsolute_spelled isReading.isStep, reading_textsOf isReading, textsOf, textsOf,
    Nat.mod_mod]

theorem normalize_foldl_child (areNames : ∀ name ∈ names, IsName name) :
    (names.foldl child p.normalize).normalize = names.foldl child p.normalize := by
  have isReading := isReading_reading p
  have further : IsReading { p.reading with names := p.reading.names ++ names } :=
    ⟨isReading.relative, List.forall_mem_append.2 ⟨isReading.areNames, areNames⟩⟩
  have whole : textsOf p.reading ++ names =
      textsOf { p.reading with names := p.reading.names ++ names } := List.append_assoc _ _ _
  rw [normalize_eq p, foldl_child_spelled isReading.isStep (steps_of_names areNames), whole,
    normalize_textsOf further]

theorem foldl_child_empty (steps : ∀ text ∈ texts, IsStep text) :
    texts.foldl child ⟨""⟩ = relativeOf texts := by
  have led : texts.foldl child (spelled false []) = spelled false ([] ++ texts) :=
    foldl_child_spelled (List.forall_mem_nil IsStep) steps false
  exact led

theorem normalize_join_all (nonempty : p.spelling ≠ "") :
    (p.join ⟨"**/*"⟩).normalize = ["**", "*"].foldl child p.normalize := by
  have pieces : (Text.split '/' "**/*".toList).filterMap pieceComponent =
      ["**", "*"].map stepComponent := by decide
  rw [Path.normalize, components_join rfl nonempty, List.foldl_append, pieces, ← Path.normalize]
  rfl

theorem mem_spelled {c : Char} {text : String} (step : IsStep text) (member : text ∈ texts)
    (held : c ∈ text.toList) (absolute : Bool) : c ∈ (spelled absolute texts).spelling.toList := by
  have whole : c ∈ (pathOf texts).spelling.toList := mem_pathOf_iff.2 (.inr ⟨text, member, held⟩)
  cases absolute with
  | true => exact whole
  | false =>
    rw [toList_pathOf_relativeOf, List.mem_cons] at whole
    refine whole.resolve_left ?_
    rintro rfl
    exact step.free held

end Path

namespace Source

theorem fixedStart_spelled_all (steps : ∀ text ∈ texts, IsStep text)
    (unmarked : ∀ text ∈ texts, hasGlobMark text = false) (absolute : Bool) :
    fixedStart (spelled absolute (texts ++ ["**", "*"])).spelling = spelled absolute texts := by
  cases absolute with
  | true => exact fixedStart_all steps unmarked
  | false =>
    have stars : ∀ text ∈ ["**", "*"], IsStep text := by decide
    have all : ∀ text ∈ texts ++ ["**", "*"], IsStep text :=
      List.forall_mem_append.2 ⟨steps, stars⟩
    have found : (Path.mk (spelled false (texts ++ ["**", "*"])).spelling).components =
        (texts ++ ["**", "*"]).map stepComponent := components_relativeOf all
    have marked : hasGlobMark "**" = true := by decide
    have kept : ((texts ++ ["**", "*"]).map stepComponent).takeWhile (fun component =>
        !hasGlobMark component.text) = texts.map stepComponent := by
      rw [List.map_append, List.takeWhile_append_of_pos, List.map_cons, List.takeWhile_cons_of_neg,
        List.append_nil]
      · simp [marked]
      · simpa using unmarked
    simp only [fixedStart, found, kept, List.length_map, List.length_append]
    rw [if_neg (by simp), List.foldl_map]
    simp only [text_stepComponent]
    exact foldl_child_empty steps

end Source

namespace Path.Addresses

variable (addresses : p.Addresses tree dir)

include addresses

theorem nonempty : p.spelling ≠ "" := (parts_of_locate addresses.located).2.1

theorem isSpelled : p.normalize.IsSpelled := isSpelled_normalize addresses.spoken

theorem locate_normalize (proper : tree.Proper) : tree.locate p.normalize = .ok dir :=
  locate_normalForm proper addresses.few addresses.spoken addresses.located

theorem plain_stem : ∀ c ∈ p.normalize.stem, Glob.IsPlain c ∧ c ≠ '\x7d' := by
  unfold stem
  split_ifs
  · simp
  · exact addresses.plain

theorem globBelow_eq : globBelow p "**/*" = (["**", "*"].foldl child p.normalize).spelling ∧
    (globBelow p "**/*").toList = p.normalize.stem ++ Glob.allBelow := by
  have stars : ∀ text ∈ ["**", "*"], IsStep text := by decide
  have text := addresses.isSpelled.toList_foldl_child stars (List.cons_ne_nil _ _)
  have seen : '/' :: (Ignore.RuleSet.seen ["**", "*"]).toList = Glob.allBelow := by decide
  rw [seen] at text
  have unescaped : '\\' ∉ p.normalize.stem ++ Glob.allBelow :=
    List.not_mem_append (fun escape => absurd (addresses.plain_stem _ escape).1 (by decide))
      (by decide)
  have marked : hasGlobMark "**/*" = true := by decide
  have whole : globBelow p "**/*" = (["**", "*"].foldl child p.normalize).spelling := by
    rw [globBelow, normalize_join_all addresses.nonempty, text, map_unescape unescaped, ← text,
      String.ofList_toList, marked, Bool.true_or, if_pos rfl]
  exact ⟨whole, whole ▸ text⟩

theorem fixedStart_eq : fixedStart (globBelow p "**/*") = p.normalize := by
  have isStep := (isReading_reading p).isStep
  have stars : ∀ text ∈ ["**", "*"], IsStep text := by decide
  have plain := addresses.plain
  rw [addresses.globBelow_eq.1]
  rw [normalize_eq p] at plain ⊢
  rw [foldl_child_spelled isStep stars]
  refine fixedStart_spelled_all isStep (fun text member => ?_) p.isAbsolute
  refine List.any_eq_false.2 fun c held marked => ?_
  obtain ⟨one, star, bracket, brace, -⟩ :=
    (plain c (mem_spelled (isStep text member) member held _)).1
  simp [globMarks, one, star, bracket, brace] at marked

theorem exists_searches : ∃ selector,
    SourceSelector.ofCatalog tree (SourceCatalog.ofProject p) = .ok selector ∧
      selector.Searches tree p := by
  have opens : '\x7d' ∉ p.normalize.stem := fun closing => (addresses.plain_stem _ closing).2 rfl
  obtain ⟨glob, read, isMatch⟩ := Glob.exists_isMatch_below false
    (fun c member => (addresses.plain_stem c member).1) opens addresses.globBelow_eq.2
  refine ⟨_, SourceSelector.ofCatalog_ofProject_iff.2 ⟨glob, read, rfl⟩, ?_⟩
  refine ⟨by simp only [addresses.fixedStart_eq], rfl, fun {names} nonempty areNames => ?_⟩
  have text := addresses.isSpelled.toList_foldl_child (steps_of_names areNames) nonempty
  rw [SourceSelector.selects?_of_defaults rfl rfl rfl, normalize_foldl_child areNames,
    if_pos ((isMatch _).2 ⟨_, text⟩)]

end Path.Addresses

theorem SourceSelector.Searches.selects_iff {selector : SourceSelector}
    (searches : selector.Searches tree p) (nonempty : names ≠ [])
    (areNames : ∀ name ∈ names, IsName name) :
    selector.selects (names.foldl child p.normalize) = true ↔
      isLeftOut (names.foldl child p.normalize) = false ∧
        selector.isIgnored? (names.foldl child p.normalize) = some false := by
  rw [selects, decide_eq_true_eq, searches.selects?_eq nonempty areNames]
  cases isLeftOut (names.foldl child p.normalize) <;> simp

end UtilityCss
