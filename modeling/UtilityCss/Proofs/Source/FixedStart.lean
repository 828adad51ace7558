import Mathlib.Data.List.TakeWhile
import UtilityCss.Proofs.Glob.Literal
import UtilityCss.Proofs.Path.Join
import UtilityCss.Source.Catalog

set_option autoImplicit false

namespace UtilityCss.Source

open UtilityCss.Path FileTree

variable {pattern : String} {base p : Path} {texts : List String} {rest behind : List Char}
  {pieces : List (List Char)}

def isMarked (piece : List Char) : Bool := piece.any (· ∈ globMarks)

theorem hasGlobMark_eq (text : String) : hasGlobMark text = isMarked text.toList := rfl

@[simp] theorem isMarked_slash_cons (text : List Char) : isMarked ('/' :: text) = isMarked text := by
  have slash : decide ('/' ∈ globMarks) = false := by decide
  rw [isMarked, List.any_cons, slash, Bool.false_or, isMarked]

theorem pieceComponent_of_isMarked {piece : List Char} (marked : isMarked piece = true) :
    pieceComponent piece = some (.name (String.ofList piece)) := by
  unfold pieceComponent
  split_ifs with silent up
  · rcases silent with rfl | rfl <;> exact absurd marked (by decide)
  · subst up
    exact absurd marked (by decide)
  · rfl

theorem fixedStart_of_components (steps : ∀ text ∈ texts, IsStep text)
    (found : (Path.mk pattern).components = .root :: texts.map stepComponent) :
    fixedStart pattern = pathOf (if texts.all fun text => !hasGlobMark text then texts.dropLast
      else texts.takeWhile fun text => !hasGlobMark text) := by
  have root : (Path.mk "").child "/" = pathOf [] := rfl
  have plain : (Path.mk pattern).components.takeWhile (fun component =>
      !hasGlobMark component.text) =
        .root :: (texts.takeWhile fun text => !hasGlobMark text).map stepComponent := by
    rw [found, List.takeWhile_cons_of_pos (by decide), List.takeWhile_map]
    simp [Function.comp_def]
  have kept : ∀ text ∈ texts.takeWhile (fun text => !hasGlobMark text), IsStep text :=
    fun text member => steps text ((List.takeWhile_prefix _).subset member)
  have led : (texts.takeWhile fun text => !hasGlobMark text).foldl child (pathOf []) =
      pathOf (texts.takeWhile fun text => !hasGlobMark text) :=
    foldl_child_pathOf (by simp) kept
  simp only [fixedStart, plain, List.foldl_cons, List.foldl_map, text_stepComponent,
    show Component.root.text = "/" from rfl, root, led]
  rw [found, List.length_cons, List.length_cons, List.length_map, List.length_map]
  by_cases whole : texts.all (fun text => !hasGlobMark text)
  · have same : texts.takeWhile (fun text => !hasGlobMark text) = texts :=
      List.takeWhile_eq_self_iff.2 (List.all_eq_true.1 whole)
    rw [same, if_pos rfl, if_pos whole]
    rcases List.eq_nil_or_concat texts with rfl | ⟨before, last, rfl⟩
    · rfl
    · rw [List.concat_eq_append] at steps ⊢
      rw [parent?_pathOf (fun text member => steps text (List.mem_append_left _ member))
        (steps last (by simp)), List.dropLast_concat]
      rfl
  · rw [if_neg whole, if_neg]
    intro same
    have equal := (List.takeWhile_prefix _).eq_of_length (Nat.succ.inj same)
    exact whole (List.all_eq_true.2 (List.takeWhile_eq_self_iff.1 equal))

theorem exists_fixedStart (absolute : (Path.mk pattern).isAbsolute = true) :
    ∃ texts : List String, (∀ text ∈ texts, IsStep text) ∧ fixedStart pattern = pathOf texts := by
  obtain ⟨texts, steps, found⟩ := exists_components absolute
  have before : (if texts.all fun text => !hasGlobMark text then texts.dropLast
      else texts.takeWhile fun text => !hasGlobMark text) <+: texts := by
    split_ifs
    · exact List.dropLast_prefix texts
    · exact List.takeWhile_prefix _
  exact ⟨_, fun text member => steps text (before.subset member),
    fixedStart_of_components steps found⟩

theorem startsWith_fixedStart (pattern : String) :
    (Path.mk pattern).startsWith (fixedStart pattern) = true := by
  have before := List.takeWhile_prefix (l := (Path.mk pattern).components)
    fun component => !hasGlobMark component.text
  have rebuilt := components_rebuilt before
  have above : (Path.mk pattern).startsWith (((Path.mk pattern).components.takeWhile
      fun component => !hasGlobMark component.text).foldl
        (fun root component => root.child component.text) (Path.mk "")) = true := by
    rw [startsWith_iff, rebuilt]
    exact before
  unfold fixedStart
  dsimp only
  split_ifs
  · cases found : (((Path.mk pattern).components.takeWhile fun component =>
        !hasGlobMark component.text).foldl (fun root component => root.child component.text)
          (Path.mk "")).parent? with
    | none => exact above
    | some parent =>
      rw [startsWith_iff] at above ⊢
      exact (startsWith_iff.1 (startsWith_parent? found)).trans above
  · exact above

theorem any_split (text : List Char) : (Text.split '/' text).any isMarked = isMarked text := by
  induction text with
  | nil => rfl
  | cons c rest ih =>
    by_cases same : c = '/'
    · have plain : ¬ '/' ∈ globMarks := by decide
      simpa [Text.split, same, isMarked, plain] using ih
    · rcases pieces : Text.split '/' rest with _ | ⟨piece, others⟩
      · exact absurd pieces (Text.split_ne_nil '/' rest)
      · rw [pieces] at ih
        simpa [isMarked, Text.split, same, pieces, Bool.or_assoc] using
          congrArg (decide (c ∈ globMarks) || ·) ih

-- The pieces in front of the first one that has a mark.
theorem exists_marked (marked : isMarked rest = true) :
    ∃ before piece after, Text.split '/' rest = before ++ piece :: after ∧
      (∀ other ∈ before, isMarked other = false) ∧ isMarked piece = true := by
  rw [← any_split, List.any_eq_true, ← List.find?_isSome, Option.isSome_iff_exists] at marked
  obtain ⟨piece, found⟩ := marked
  obtain ⟨isPiece, before, after, split, unmarked⟩ := List.find?_eq_some_iff_append.1 found
  exact ⟨before, piece, after, split, by simpa using unmarked, isPiece⟩

theorem isMarked_intercalate (unmarked : ∀ piece ∈ pieces, isMarked piece = false) :
    isMarked (['/'].intercalate pieces) = false := by
  induction pieces with
  | nil => rfl
  | cons piece rest ih =>
    obtain ⟨first, others⟩ := List.forall_mem_cons.1 unmarked
    cases rest with
    | nil => simpa using first
    | cons next more =>
      rw [List.intercalate_cons_cons, List.append_assoc, List.singleton_append, isMarked,
        List.any_append, ← isMarked, ← isMarked, isMarked_slash_cons, first, ih others]
      rfl

theorem isPlain_of_unmarked {text : List Char} (unmarked : isMarked text = false)
    (unescaped : '\\' ∉ text) : ∀ c ∈ text, Glob.IsPlain c := by
  intro c member
  have plain : ¬ c ∈ globMarks := by
    simpa using List.any_eq_false.1 unmarked c member
  simp only [globMarks, List.mem_cons, List.not_mem_nil, or_false, not_or] at plain
  obtain ⟨star, one, bracket, brace⟩ := plain
  exact ⟨one, star, bracket, brace, fun escape => unescaped (escape ▸ member)⟩

theorem components_fixedStart {before after : List (List Char)} {piece : List Char}
    (split : Text.split '/' pattern.toList = before ++ piece :: after)
    (unmarked : ∀ other ∈ before, isMarked other = false) (marked : isMarked piece = true) :
    (fixedStart pattern).components =
      startOf (before ++ piece :: after) ++ before.filterMap pieceComponent := by
  have free := Text.not_mem_of_mem_split '/' pattern.toList
  have found : (Path.mk pattern).components = (startOf (before ++ piece :: after) ++
      before.filterMap pieceComponent) ++
        .name (String.ofList piece) :: after.filterMap pieceComponent := by
    rw [components_eq, split, List.filterMap_append,
      List.filterMap_cons_some (pieceComponent_of_isMarked marked), List.append_assoc]
  have plain : ∀ component ∈ startOf (before ++ piece :: after) ++ before.filterMap pieceComponent,
      (!hasGlobMark component.text) = true := by
    intro component member
    rcases List.mem_append.1 member with isStart | isPiece
    · rcases startOf_cases (before ++ piece :: after) with start | start | start
      all_goals
        rw [start] at isStart
        simp at isStart
      all_goals
        subst isStart
        decide
    · obtain ⟨other, inside, same⟩ := List.mem_filterMap.1 isPiece
      have isFree : '/' ∉ other := free other (by simp [split, inside])
      obtain ⟨text, -, rfl, rfl⟩ := exists_of_pieceComponent isFree same
      simp [hasGlobMark_eq, unmarked _ inside]
  have kept : (Path.mk pattern).components.takeWhile (fun component =>
      !hasGlobMark component.text) =
        startOf (before ++ piece :: after) ++ before.filterMap pieceComponent := by
    rw [found, List.takeWhile_append_of_pos plain, List.takeWhile_cons_of_neg, List.append_nil]
    simp [Component.text, hasGlobMark_eq, marked]
  have shorter : ¬ (startOf (before ++ piece :: after) ++
      before.filterMap pieceComponent).length = (Path.mk pattern).components.length := by
    simp only [found, List.length_append, List.length_cons]
    omega
  simp only [fixedStart, kept]
  rw [if_neg shorter, components_rebuilt (p := ⟨pattern⟩) (found ▸ List.prefix_append _ _)]

theorem startsWith_of_isMatch {glob : Glob} (read : Glob.read false pattern = .ok glob)
    (unescaped : '\\' ∉ pattern.toList) (isMatch : glob.isMatch p.spelling = true) :
    p.startsWith (fixedStart pattern) = true := by
  by_cases marked : isMarked pattern.toList = true
  · obtain ⟨before, piece, after, split, unmarked, isMark⟩ := exists_marked marked
    rw [startsWith_iff, components_fixedStart split unmarked isMark]
    cases before with
    | nil =>
      have start : startOf ([] ++ piece :: after) = [] := by
        rw [List.nil_append, startOf]
        · rintro other more whole
          rw [(List.cons.inj whole).1] at isMark
          cases isMark
        · rintro more whole
          rw [(List.cons.inj whole).1] at isMark
          cases isMark
      rw [start]
      exact List.nil_prefix
    | cons first others =>
      have free := Text.not_mem_of_mem_split '/' pattern.toList
      have begins : pattern.toList = ['/'].intercalate (first :: others) ++
          '/' :: ['/'].intercalate (piece :: after) := by
        rw [← Text.split_join '/' pattern.toList, split, Text.join_eq_intercalate,
          Text.intercalate_append ['/'] (List.cons_ne_nil _ _) (List.cons_ne_nil _ _)]
        simp
      have plain : ∀ c ∈ ['/'].intercalate (first :: others), Glob.IsPlain c := by
        apply isPlain_of_unmarked (isMarked_intercalate unmarked)
        rw [begins, List.mem_append, not_or] at unescaped
        exact unescaped.1
      obtain ⟨behind, text⟩ := Glob.begins_of_isMatch read begins plain isMatch
      have pieces : Text.split '/' p.spelling.toList = (first :: others) ++ Text.split '/' behind := by
        rw [text, Text.split_append_cons, Text.split_intercalate (List.cons_ne_nil _ _)]
        exact fun other member => free other (split ▸ List.mem_append_left _ member)
      rw [components_eq p, pieces, List.filterMap_append, ← List.append_assoc,
        startOf_append_congr (List.cons_ne_nil _ _) (List.cons_ne_nil piece after)
          (Text.split_ne_nil '/' behind)]
      exact List.prefix_append _ _
  · -- Without a mark the pattern matches its own text alone.
    have plain := isPlain_of_unmarked (Bool.eq_false_iff.2 marked) unescaped
    have same : p = ⟨pattern⟩ := congrArg Path.mk (Glob.eq_of_isMatch read plain isMatch)
    rw [same]
    exact startsWith_fixedStart pattern

theorem isAbsolute_join {q : Path} (absolute : base.isAbsolute = true) :
    (base.join q).isAbsolute = true := by
  obtain ⟨rest, text⟩ := toList_of_isAbsolute absolute
  unfold join
  split_ifs with replaced
  · rcases replaced with same | empty
    · exact same
    · simp [empty] at text
  · simp [isAbsolute, text]
  · simp [isAbsolute, text]

theorem normalize_eq_pathOf (absolute : p.isAbsolute = true) :
    ∃ texts, (∀ text ∈ texts, IsStep text) ∧ p.normalize = pathOf texts := by
  obtain ⟨texts, steps, found⟩ := exists_components absolute
  exact normalize_of_components steps found

theorem globBelow_cases (base : Path) (pattern : String) :
    ∃ kept behind, (globBelow base pattern).toList = kept ++ behind ∧
      kept <+: ((base.join ⟨pattern⟩).normalize.spelling.toList.map fun c =>
        if c = '\\' then '/' else c) ∧
      (behind = [] ∧ kept = ((base.join ⟨pattern⟩).normalize.spelling.toList.map fun c =>
        if c = '\\' then '/' else c) ∨ behind = ['/', '*', '*', '/', '*']) := by
  unfold globBelow
  dsimp only
  split_ifs
  · exact ⟨_, [], by simp, List.prefix_refl _, .inl ⟨rfl, rfl⟩⟩
  · refine ⟨_, _, String.toList_ofList, ?_, .inr rfl⟩
    rw [Text.dropWhileEnd, ← List.reverse_suffix, List.reverse_reverse]
    exact List.dropWhile_suffix _

theorem toList_globBelow (absolute : base.isAbsolute = true) (pattern : String) :
    ∃ rest, (globBelow base pattern).toList = '/' :: rest := by
  obtain ⟨texts, -, normal⟩ := normalize_eq_pathOf (isAbsolute_join (q := ⟨pattern⟩) absolute)
  obtain ⟨kept, behind, text, before, last⟩ := globBelow_cases base pattern
  rw [normal, toList_pathOf, List.map_cons] at before last
  cases kept with
  | nil =>
    rcases last with ⟨-, whole⟩ | rfl
    · cases whole
    · exact ⟨_, text⟩
  | cons c kept =>
    obtain ⟨rfl, -⟩ := List.cons_prefix_cons.1 before
    exact ⟨kept ++ behind, text⟩

theorem no_escape_globBelow (base : Path) (pattern : String) :
    '\\' ∉ (globBelow base pattern).toList := by
  obtain ⟨kept, behind, text, before, last⟩ := globBelow_cases base pattern
  rw [text, List.mem_append, not_or]
  constructor
  · intro member
    obtain ⟨c, -, same⟩ := List.mem_map.1 (before.subset member)
    split_ifs at same with escape
    · exact absurd same (by decide)
    · exact escape same
  · rcases last with ⟨rfl, -⟩ | rfl <;> decide

end UtilityCss.Source
