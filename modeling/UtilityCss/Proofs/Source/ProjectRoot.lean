import UtilityCss.Proofs.Glob.Spelled
import UtilityCss.Proofs.Path.Location
import UtilityCss.Proofs.Source.Refusals

set_option autoImplicit false

namespace UtilityCss

open Source UtilityCss.Path FileTree

namespace Path

def IsBelow (p q : Path) : Prop := p.startsWith q = true ∧ p.same q = false

instance (p q : Path) : Decidable (p.IsBelow q) := inferInstanceAs (Decidable (_ ∧ _))

variable {p : Path} {texts others : List String}

theorem isBelow_pathOf (steps : ∀ text ∈ texts, IsStep text) (further : ∀ text ∈ others, IsStep text) :
    (pathOf others).IsBelow (pathOf texts) ↔ ∃ more, more ≠ [] ∧ others = texts ++ more := by
  rw [IsBelow, startsWith_pathOf further steps, Bool.eq_false_iff, ne_eq, same_pathOf further steps]
  constructor
  · rintro ⟨⟨more, rfl⟩, different⟩
    exact ⟨more, by simpa using different, rfl⟩
  · rintro ⟨more, nonempty, rfl⟩
    exact ⟨List.prefix_append texts more, by simpa using nonempty⟩

-- Paths of steps are cut at every slash, so a spelling that continues another one names more.
theorem begins_iff_isBelow_pathOf (steps : ∀ text ∈ texts, IsStep text)
    (further : ∀ text ∈ others, IsStep text) (nonempty : texts ≠ []) :
    (∃ behind, (pathOf others).spelling.toList =
      (pathOf texts).spelling.toList ++ '/' :: behind) ↔
        (pathOf others).IsBelow (pathOf texts) := by
  rw [isBelow_pathOf steps further]
  constructor
  · rintro ⟨behind, spelled⟩
    have pieces := congrArg (Text.split '/') spelled
    rw [Text.split_append_cons, split_pathOf steps, split_pathOf further, if_neg nonempty,
      List.cons_append, List.cons.injEq] at pieces
    have behindPieces := Text.split_ne_nil '/' behind
    split_ifs at pieces with empty
    · have lengths := congrArg List.length pieces.2
      have first := List.length_pos_of_ne_nil nonempty
      have second := List.length_pos_of_ne_nil behindPieces
      simp only [List.length_append, List.length_map, List.length_singleton] at lengths
      omega
    · obtain ⟨first, more, rfl, isFirst, isMore⟩ := List.map_eq_append_iff.1 pieces.2
      obtain rfl : first = texts :=
        List.map_injective_iff.2 (fun _ _ => String.toList_inj.1) isFirst
      refine ⟨more, fun none => behindPieces ?_, rfl⟩
      rw [← isMore, none, List.map_nil]
  · rintro ⟨more, isMore, rfl⟩
    refine ⟨['/'].intercalate (more.map String.toList), ?_⟩
    rw [toList_pathOf, toList_pathOf, List.map_append,
      Text.intercalate_append ['/'] (by simpa using nonempty) (by simpa using isMore)]
    simp

theorem begins_iff_isBelow (p : Path) (steps : ∀ text ∈ texts, IsStep text) (nonempty : texts ≠ []) :
    (∃ behind, p.normalize.spelling.toList = (pathOf texts).spelling.toList ++ '/' :: behind) ↔
      p.normalize.IsBelow (pathOf texts) := by
  cases absolute : p.isAbsolute with
  | true =>
    obtain ⟨others, further, same⟩ := normalize_eq_pathOf absolute
    rw [same, begins_iff_isBelow_pathOf steps further nonempty]
  | false =>
    have relative := not_isAbsolute_normalize absolute
    constructor
    · rintro ⟨behind, spelled⟩
      simp [isAbsolute, spelled, toList_pathOf] at relative
    · rintro ⟨starts, -⟩
      rw [startsWith_iff, components_pathOf steps] at starts
      rw [isAbsolute_iff.2 (starts.subset List.mem_cons_self)] at relative
      cases relative

end Path

namespace Source

variable {pattern : String} {texts : List String}

theorem map_unescape {text : List Char} (unescaped : '\\' ∉ text) :
    text.map (fun c => if c = '\\' then '/' else c) = text := by
  conv_rhs => rw [← List.map_id text]
  refine List.map_congr_left fun c member => if_neg ?_
  rintro rfl
  exact unescaped member

theorem toList_pathOf_all (nonempty : texts ≠ []) :
    (pathOf (texts ++ ["**", "*"])).spelling.toList =
      (pathOf texts).spelling.toList ++ Glob.allBelow := by
  rw [List.append_cons, toList_pathOf_concat, toList_pathOf_concat, if_neg nonempty,
    if_neg (by simp)]
  simp [Glob.allBelow]

theorem globBelow_all (steps : ∀ text ∈ texts, IsStep text)
    (normal : (pathOf texts).normalize = pathOf texts)
    (unescaped : '\\' ∉ (pathOf texts).spelling.toList) :
    globBelow (pathOf texts) "**/*" = (pathOf (texts ++ ["**", "*"])).spelling := by
  have nonempty := spelling_pathOf_ne_empty texts
  have pieces : (Text.split '/' "**/*".toList).filterMap pieceComponent =
      ["**", "*"].map stepComponent := by decide
  have stars : ∀ text ∈ ["**", "*"], IsStep text := by decide
  have joined : ((pathOf texts).join ⟨"**/*"⟩).normalize = pathOf (texts ++ ["**", "*"]) := by
    rw [Path.normalize, components_join rfl nonempty, List.foldl_append, pieces, ← Path.normalize,
      normal]
    exact foldl_child_pathOf steps stars
  have free : '\\' ∉ (pathOf (texts ++ ["**", "*"])).spelling.toList := by
    rw [mem_pathOf_iff] at unescaped ⊢
    simpa [or_and_right, exists_or] using unescaped
  have marked : hasGlobMark "**/*" = true := by decide
  rw [globBelow, joined, map_unescape free, String.ofList_toList, marked, Bool.true_or, if_pos rfl]

theorem isPlain_fixedStart (absolute : (Path.mk pattern).isAbsolute = true)
    (unescaped : '\\' ∉ pattern.toList) :
    ∀ c ∈ (fixedStart pattern).spelling.toList, Glob.IsPlain c := by
  obtain ⟨texts, steps, found⟩ := exists_components absolute
  have kept : ∀ text ∈ if texts.all fun text => !hasGlobMark text then texts.dropLast
      else texts.takeWhile fun text => !hasGlobMark text, text ∈ texts ∧ isMarked text.toList = false := by
    intro text member
    split_ifs at member with all
    · have inside := List.dropLast_subset texts member
      exact ⟨inside, by simpa [hasGlobMark_eq] using List.all_eq_true.1 all text inside⟩
    · exact ⟨(List.takeWhile_prefix _).subset member,
        by simpa [hasGlobMark_eq] using List.mem_takeWhile_imp member⟩
  intro c member
  rw [fixedStart_of_components steps found] at member
  rcases mem_pathOf_iff.1 member with rfl | ⟨text, isText, held⟩
  · decide
  · obtain ⟨inside, unmarked⟩ := kept text isText
    exact isPlain_of_unmarked unmarked
      (fun escape => unescaped (mem_spelling_of_component absolute found inside escape)) c held

theorem fixedStart_all (steps : ∀ text ∈ texts, IsStep text)
    (unmarked : ∀ text ∈ texts, hasGlobMark text = false) :
    fixedStart (pathOf (texts ++ ["**", "*"])).spelling = pathOf texts := by
  have stars : ∀ text ∈ ["**", "*"], IsStep text := by decide
  have all : ∀ text ∈ texts ++ ["**", "*"], IsStep text := List.forall_mem_append.2 ⟨steps, stars⟩
  have found : (Path.mk (pathOf (texts ++ ["**", "*"])).spelling).components =
      .root :: (texts ++ ["**", "*"]).map stepComponent := components_pathOf all
  have marked : hasGlobMark "**" = true := by decide
  rw [fixedStart_of_components all found, if_neg, List.takeWhile_append_of_pos,
    List.takeWhile_cons_of_neg, List.append_nil]
  · simp [marked]
  · simpa using unmarked
  · simp [marked]

end Source

namespace SourceSelector

variable {tree : FileTree} {root : Path} {selector : SourceSelector} {texts : List String}

theorem ofCatalog_ofProject_iff :
    ofCatalog tree (SourceCatalog.ofProject root) = .ok selector ↔
      ∃ glob, Glob.read false (globBelow root "**/*") = .ok glob ∧ selector =
        { defaults := [glob], declared := [], excluded := []
          ignoreFiles := (ignoreFile? tree root).toList
          walks := [⟨fixedStart (globBelow root "**/*"), true⟩]
          roots := [fixedStart (globBelow root "**/*")] } := by
  have walks : walksOf (SourceCatalog.ofProject root) =
      [⟨fixedStart (globBelow root "**/*"), true⟩] := rfl
  have roots : (SourceCatalog.ofProject root).roots = [fixedStart (globBelow root "**/*")] := rfl
  have files : [Entry.mk "**/*" root .default].filterMap (fun entry => ignoreFile? tree entry.base) =
      (ignoreFile? tree root).toList := by
    cases found : ignoreFile? tree root <;> simp [found]
  have defaults : (SourceCatalog.ofProject root).entriesOf .default = [⟨"**/*", root, .default⟩] :=
    rfl
  have declared : (SourceCatalog.ofProject root).entriesOf .declared = [] := rfl
  have excluded : (SourceCatalog.ofProject root).exclusions = [] := rfl
  rw [ofCatalog_eq_ok, walks, roots, defaults, declared, excluded, files]
  cases selector with
  | mk defaults declared excluded ignoreFiles walks roots =>
    simp only [readGlobs, Entry.glob, SourceSelector.mk.injEq, Except.ok.injEq]
    cases Glob.read false (globBelow root "**/*") with
    | error fault => simp
    | ok glob => simp [Except.map, eq_comm]

theorem selects?_of_defaults {glob : Glob} {path : Path} (excluded : selector.excluded = [])
    (declared : selector.declared = []) (defaults : selector.defaults = [glob]) :
    selector.selects? path = if glob.isMatch path.normalize.spelling then
      if isLeftOut path.normalize then some false else
        (selector.isIgnored? path.normalize).map (!·)
      else some false := by
  simp [selects?, matchesAny, excluded, declared, defaults]

theorem selects_of_defaults {glob : Glob} {path : Path} (excluded : selector.excluded = [])
    (declared : selector.declared = []) (defaults : selector.defaults = [glob]) :
    selector.selects path = true ↔ glob.isMatch path.normalize.spelling = true ∧
      isLeftOut path.normalize = false ∧ selector.isIgnored? path.normalize = some false := by
  simp [selects_eq_true_iff, matchesAny, excluded, declared, defaults]

/-- The sources of a project directory are those below it that are not left out and that its own
ignore file does not exclude, no path is refused, and the only walk starts there. -/
structure TakesLiterally (tree : FileTree) (root : Path) (selector : SourceSelector) : Prop where
  roots : selector.roots = [root]
  answers : ∀ path, selector.selects? path ≠ none
  ignoreFiles : selector.ignoreFiles = (ignoreFile? tree root).toList
  below : ∀ path, selector.selects path = true → path.normalize.IsBelow root
  selects : ∀ path, path.normalize.IsBelow root → isLeftOut path.normalize = false →
    selector.isIgnored? path.normalize ≠ some true → selector.selects path = true

theorem selects?_ofProject_ne_none (normal : root.normalize = root)
    (compiled : ofCatalog tree (SourceCatalog.ofProject root) = .ok selector) (path : Path) :
    selector.selects? path ≠ none := by
  refine selects?_ne_none (compiles_of_ofCatalog compiled) (answersAll_ignoreFiles ?_) path
  intro entry member
  obtain rfl : entry = ⟨"**/*", root, .default⟩ := List.mem_singleton.1 member
  exact normal

theorem exists_takesLiterally (tree : FileTree) (steps : ∀ text ∈ texts, IsStep text)
    (normal : (pathOf texts).normalize = pathOf texts) (nonempty : texts ≠ [])
    (plain : ∀ c ∈ (pathOf texts).spelling.toList, Glob.IsPlain c)
    (opens : '\x7d' ∉ (pathOf texts).spelling.toList) :
    ∃ selector, ofCatalog tree (SourceCatalog.ofProject (pathOf texts)) = .ok selector ∧
      TakesLiterally tree (pathOf texts) selector := by
  have unescaped : '\\' ∉ (pathOf texts).spelling.toList := fun escape =>
    absurd (plain _ escape) (by decide)
  have unmarked : ∀ text ∈ texts, hasGlobMark text = false := by
    intro text isText
    refine List.any_eq_false.2 fun c held marked => ?_
    obtain ⟨one, star, bracket, brace, -⟩ := plain c (mem_pathOf_iff.2 (.inr ⟨text, isText, held⟩))
    simp [globMarks, one, star, bracket, brace] at marked
  have pattern := globBelow_all steps normal unescaped
  obtain ⟨glob, read, isMatch⟩ :=
    Glob.exists_isMatch_below false plain opens (toList_pathOf_all nonempty)
  rw [← pattern] at read
  obtain ⟨selector, compiled⟩ :
      ∃ selector, ofCatalog tree (SourceCatalog.ofProject (pathOf texts)) = .ok selector :=
    ⟨_, ofCatalog_ofProject_iff.2 ⟨glob, read, rfl⟩⟩
  have answers := selects?_ofProject_ne_none normal compiled
  obtain ⟨other, again, rfl⟩ := ofCatalog_ofProject_iff.1 compiled
  obtain rfl : glob = other := Except.ok.inj (read.symm.trans again)
  refine ⟨_, compiled, ?_, answers, rfl, fun path accepted => ?_,
    fun path isBelow kept notIgnored => ?_⟩
  · simp only [pattern, fixedStart_all steps unmarked]
  · have covered := ((selects_of_defaults rfl rfl rfl).1 accepted).1
    exact (begins_iff_isBelow path steps nonempty).1 ((isMatch _).1 covered)
  · have covered := (isMatch _).2 ((begins_iff_isBelow path steps nonempty).2 isBelow)
    refine (selects_of_defaults rfl rfl rfl).2 ⟨covered, kept, ?_⟩
    cases answer : isIgnored? _ path.normalize with
    | none =>
      exact absurd (selects?_eq_none_iff.2 ⟨rfl, rfl, by simpa [matchesAny] using covered, kept,
        answer⟩) (answers path)
    | some ignored =>
      cases ignored with
      | false => rfl
      | true => exact absurd answer notIgnored

theorem isPlain_of_roots (steps : ∀ text ∈ texts, IsStep text)
    (normal : (pathOf texts).normalize = pathOf texts) (nonempty : texts ≠ [])
    (compiled : ofCatalog tree (SourceCatalog.ofProject (pathOf texts)) = .ok selector)
    (roots : selector.roots = [pathOf texts]) :
    (∀ c ∈ (pathOf texts).spelling.toList, Glob.IsPlain c) ∧
      '\x7d' ∉ (pathOf texts).spelling.toList := by
  obtain ⟨glob, read, rfl⟩ := ofCatalog_ofProject_iff.1 compiled
  obtain ⟨rest, text⟩ := toList_globBelow (isAbsolute_pathOf texts) "**/*"
  have start : fixedStart (globBelow (pathOf texts) "**/*") = pathOf texts :=
    List.singleton_inj.1 roots
  have plain := isPlain_fixedStart (by simp [isAbsolute, text])
    (no_escape_globBelow (pathOf texts) "**/*")
  rw [start] at plain
  refine ⟨plain, ?_⟩
  have unescaped : '\\' ∉ (pathOf texts).spelling.toList := fun escape =>
    absurd (plain _ escape) (by decide)
  obtain ⟨marks, found⟩ := Glob.exists_of_read read
  rw [globBelow_all steps normal unescaped, toList_pathOf_all nonempty, List.length_append,
    Nat.add_assoc, Nat.add_comm] at found
  exact Glob.not_closing_of_readTokens plain found

/-- The directory of a project is taken as it is spelled exactly if no character of its spelling
means something in a pattern and it is not the root, which counts as lying below itself. -/
theorem ofProject_literal_iff (root : Path) (absolute : root.isAbsolute = true)
    (normal : root.normalize = root) :
    (∀ tree, ∃ selector, ofCatalog tree (SourceCatalog.ofProject root) = .ok selector ∧
        TakesLiterally tree root selector) ↔
      root.spelling ≠ "/" ∧ ∀ c ∈ root.spelling.toList, Glob.IsPlain c ∧ c ≠ '\x7d' := by
  obtain ⟨texts, steps, same⟩ := normalize_eq_pathOf absolute
  obtain rfl : root = pathOf texts := normal.symm.trans same
  have isRoot : (pathOf texts).spelling = "/" ↔ texts = [] := by
    constructor
    · exact fun spelled => eq_of_pathOf_eq steps (by simp) (congrArg Path.mk spelled)
    · rintro rfl
      rfl
  rw [ne_eq, isRoot]
  constructor
  · intro literal
    have nonempty : texts ≠ [] := by
      rintro rfl
      obtain ⟨selector, compiled, takes⟩ := literal ⟨[], []⟩
      have itself : (ofCatalog ⟨[], []⟩ (SourceCatalog.ofProject (pathOf []))).toOption.map
          (·.selects (pathOf [])) = some true := by decide +kernel
      rw [compiled] at itself
      exact absurd (takes.below (pathOf []) (Option.some.inj itself)) (by decide)
    obtain ⟨selector, compiled, takes⟩ := literal ⟨[], []⟩
    obtain ⟨plain, opens⟩ := isPlain_of_roots steps normal nonempty compiled takes.roots
    exact ⟨nonempty, fun c member => ⟨plain c member, fun closing => opens (closing ▸ member)⟩⟩
  · rintro ⟨nonempty, literal⟩ tree
    exact exists_takesLiterally tree steps normal nonempty (fun c member => (literal c member).1)
      fun closing => (literal _ closing).2 rfl

theorem ofProject_literal_of_names :
    (Path.mk "/a b,c]").isAbsolute = true ∧ (Path.mk "/a b,c]").normalize = ⟨"/a b,c]"⟩ ∧
      (∀ tree, ∃ selector,
        ofCatalog tree (SourceCatalog.ofProject ⟨"/a b,c]"⟩) = .ok selector ∧
          TakesLiterally tree ⟨"/a b,c]"⟩ selector) ∧
      ¬ ∀ tree, ∃ selector, ofCatalog tree (SourceCatalog.ofProject ⟨"/[a]"⟩) = .ok selector ∧
        TakesLiterally tree ⟨"/[a]"⟩ selector := by
  have absolute : (Path.mk "/a b,c]").isAbsolute = true := by decide
  have normal : (Path.mk "/a b,c]").normalize = ⟨"/a b,c]"⟩ := by decide
  have plain : (Path.mk "/a b,c]").spelling ≠ "/" ∧
      ∀ c ∈ (Path.mk "/a b,c]").spelling.toList, Glob.IsPlain c ∧ c ≠ '\x7d' := by
    simp [Glob.IsPlain]
  refine ⟨absolute, normal, (ofProject_literal_iff _ absolute normal).2 plain, fun literal => ?_⟩
  have bracketed := ((ofProject_literal_iff ⟨"/[a]"⟩ (by decide) (by decide)).1 literal).2
  simp [Glob.IsPlain] at bracketed

end SourceSelector

end UtilityCss
