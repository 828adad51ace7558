import UtilityCss.Path.Normal
import UtilityCss.Proofs.Path.Components

set_option autoImplicit false

namespace UtilityCss.Path

variable {p q other : Path} {pieces : List (List Char)} {text : String} {names : List String}

def startOf : List (List Char) → List Component
  | [] :: _ :: _ => [.root]
  | ['.'] :: _ => [.here]
  | _ => []

theorem components_eq (p : Path) : p.components =
    startOf (Text.split '/' p.spelling.toList) ++
      (Text.split '/' p.spelling.toList).filterMap pieceComponent := by
  simp only [components, Path.pieces]
  generalize Text.split '/' p.spelling.toList = pieces
  split
  · simp [startOf, pieceComponent]
  · simp [startOf, pieceComponent]
  · next absolute here => rw [startOf] <;> simp_all

theorem startOf_append (nonempty : pieces ≠ []) (loud : pieces ≠ [[]]) (more : List (List Char)) :
    startOf (pieces ++ more) = startOf pieces := by
  obtain ⟨first, rest, rfl⟩ := List.exists_cons_of_ne_nil nonempty
  cases first with
  | nil =>
    cases rest with
    | nil => exact absurd rfl loud
    | cons piece rest => rfl
  | cons c first =>
    by_cases here : c :: first = ['.']
    · rw [here]
      rfl
    · have silent (others : List (List Char)) : startOf ((c :: first) :: others) = [] := by
        rw [startOf] <;> simp_all
      rw [List.cons_append, silent, silent]

theorem startOf_append_congr {more others : List (List Char)} (nonempty : pieces ≠ [])
    (first : more ≠ []) (second : others ≠ []) :
    startOf (pieces ++ more) = startOf (pieces ++ others) := by
  by_cases silent : pieces = [[]]
  · obtain ⟨piece, rest, rfl⟩ := List.exists_cons_of_ne_nil first
    obtain ⟨other, later, rfl⟩ := List.exists_cons_of_ne_nil second
    rw [silent]
    rfl
  · rw [startOf_append nonempty silent, startOf_append nonempty silent]

theorem split_eq_singleton_nil {text : List Char} : Text.split '/' text = [[]] ↔ text = [] := by
  constructor
  · intro split
    have joined := Text.split_join '/' text
    rw [split] at joined
    exact joined.symm
  · rintro rfl
    rfl

theorem components_eq_nil : p.components = [] ↔ p.spelling = "" := by
  constructor
  · intro silent
    rw [components_eq, List.append_eq_nil_iff] at silent
    obtain ⟨start, pieces⟩ := silent
    obtain ⟨first, rest, split⟩ :=
      List.exists_cons_of_ne_nil (Text.split_ne_nil '/' p.spelling.toList)
    rw [split] at start pieces
    have none := List.filterMap_eq_nil_iff.1 pieces first List.mem_cons_self
    have isSilent : first = [] ∨ first = ['.'] := by
      by_contra loud
      rw [pieceComponent, if_neg loud] at none
      split_ifs at none
    rcases isSilent with rfl | rfl
    · cases rest with
      | nil => simpa using split_eq_singleton_nil.1 split
      | cons piece rest => cases start
    · cases start
  · intro empty
    rw [components_eq, empty]
    rfl

theorem components_join (relative : q.isAbsolute = false) (nonempty : p.spelling ≠ "") :
    (p.join q).components =
      p.components ++ (Text.split '/' q.spelling.toList).filterMap pieceComponent := by
  rw [join, if_neg (by simp [relative, nonempty])]
  have more := Text.split_ne_nil '/' q.spelling.toList
  split_ifs with slash
  · obtain ⟨start, whole⟩ := List.getLast?_eq_some_iff.1 slash
    have isStart := Text.split_ne_nil '/' start
    have pieces : Text.split '/' p.spelling.toList = Text.split '/' start ++ [[]] := by
      rw [whole, Text.split_append_cons]
      rfl
    have joined : Text.split '/' (p.spelling ++ q.spelling).toList =
        Text.split '/' start ++ Text.split '/' q.spelling.toList := by
      rw [String.toList_append, whole, List.append_assoc, List.singleton_append,
        Text.split_append_cons]
    rw [components_eq, components_eq, joined, pieces,
      startOf_append_congr isStart more (List.cons_ne_nil [] [])]
    simp [pieceComponent]
  · have loud : Text.split '/' p.spelling.toList ≠ [[]] := fun silent =>
      nonempty (by simpa using split_eq_singleton_nil.1 silent)
    have joined : Text.split '/' (p.spelling ++ "/" ++ q.spelling).toList =
        Text.split '/' p.spelling.toList ++ Text.split '/' q.spelling.toList := by
      rw [String.toList_append, String.toList_append, List.append_assoc]
      exact Text.split_append_cons '/' _ _
    rw [components_eq, components_eq, joined,
      startOf_append (Text.split_ne_nil '/' p.spelling.toList) loud]
    simp

theorem normalize_join_of_same (same : p.same other = true) (q : Path) :
    (p.join q).normalize = (other.join q).normalize := by
  rw [Path.same, decide_eq_true_eq] at same
  have empty : p.spelling = "" ↔ other.spelling = "" := by
    rw [← components_eq_nil, same, components_eq_nil]
  by_cases replaced : q.isAbsolute = true ∨ p.spelling = ""
  · rw [join, join, if_pos replaced, if_pos (replaced.imp_right empty.1)]
  · obtain ⟨relative, nonempty⟩ := not_or.1 replaced
    rw [Path.normalize, Path.normalize, components_join (by simpa using relative) nonempty,
      components_join (by simpa using relative) (fun other => nonempty (empty.2 other)), same]

theorem components_of_step (step : IsStep text) :
    (Path.mk text).components = [stepComponent text] := by
  have whole : Text.split '/' (Path.mk text).spelling.toList = [text.toList] :=
    Text.split_of_not_mem step.free
  have start : startOf [text.toList] = [] := by
    rw [startOf]
    · simp
    · intro other here
      exact step.speaks (.inr (List.cons.inj here).1)
  rw [components_eq, whole, start]
  simp [pieceComponent_toList step]

theorem components_child (p : Path) (step : IsStep text) :
    (p.child text).components = p.components ++ [stepComponent text] := by
  by_cases empty : p.spelling = ""
  · rw [child, join, if_pos (.inr empty), components_eq_nil.2 empty]
    exact components_of_step step
  · have whole : Text.split '/' (Path.mk text).spelling.toList = [text.toList] :=
      Text.split_of_not_mem step.free
    rw [child, components_join (not_isAbsolute_of_step step) empty, whole]
    simp [pieceComponent_toList step]

theorem spelling_child_ne_empty (p : Path) (step : IsStep text) : (p.child text).spelling ≠ "" := by
  rw [ne_eq, ← components_eq_nil, components_child p step]
  exact List.concat_ne_nil _ _

theorem components_foldl_child (p : Path) (steps : ∀ name ∈ names, IsStep name) :
    (names.foldl child p).components = p.components ++ names.map stepComponent := by
  induction names generalizing p with
  | nil => simp
  | cons name rest ih =>
    obtain ⟨step, others⟩ := List.forall_mem_cons.1 steps
    rw [List.foldl_cons, ih _ others, components_child p step]
    simp

theorem same_foldl_child {others : List String} (steps : ∀ name ∈ names, IsStep name)
    (further : ∀ name ∈ others, IsStep name)
    (same : (names.foldl child p).same (others.foldl child p) = true) : names = others := by
  rw [Path.same, decide_eq_true_eq, components_foldl_child p steps,
    components_foldl_child p further, List.append_cancel_left_eq] at same
  exact List.map_injective_iff.2 stepComponent_injective same

theorem components_slash (nonempty : p.spelling ≠ "") :
    (Path.mk (p.spelling ++ "/")).components = p.components := by
  have pieces : Text.split '/' (p.spelling ++ "/").toList =
      Text.split '/' p.spelling.toList ++ [[]] := by
    rw [String.toList_append]
    exact Text.split_append_cons '/' p.spelling.toList []
  have loud : Text.split '/' p.spelling.toList ≠ [[]] := fun silent =>
    nonempty (by simpa using split_eq_singleton_nil.1 silent)
  rw [components_eq, components_eq, pieces,
    startOf_append (Text.split_ne_nil '/' p.spelling.toList) loud]
  simp [pieceComponent]

theorem startOf_cases (pieces : List (List Char)) :
    startOf pieces = [] ∨ startOf pieces = [.root] ∨ startOf pieces = [.here] := by
  unfold startOf
  split <;> simp

theorem exists_step_of_concat {before : List Component} {component : Component}
    (prior : before ++ [component] <+: p.components) :
    (∃ text, IsStep text ∧ component = stepComponent text) ∨
      before = [] ∧ (component = .root ∨ component = .here) := by
  obtain ⟨texts, steps, same⟩ := exists_steps (Text.not_mem_of_mem_split '/' p.spelling.toList)
  rw [components_eq, same] at prior
  have step_of_mem : component ∈ texts.map stepComponent →
      ∃ text, IsStep text ∧ component = stepComponent text := by
    intro member
    obtain ⟨text, isText, rfl⟩ := List.mem_map.1 member
    exact ⟨text, (steps text isText).1, rfl⟩
  rcases before with _ | ⟨first, before⟩
  · have member : component ∈ startOf (Text.split '/' p.spelling.toList) ++ texts.map stepComponent :=
      prior.subset (by simp)
    rcases List.mem_append.1 member with isStart | isStep
    · rcases startOf_cases (Text.split '/' p.spelling.toList) with start | start | start <;>
        rw [start] at isStart <;> simp_all
    · exact .inl (step_of_mem isStep)
  · rcases startOf_cases (Text.split '/' p.spelling.toList) with start | start | start
    all_goals
      rw [start] at prior
      simp only [List.nil_append, List.cons_append] at prior
    · exact .inl (step_of_mem (prior.subset (by simp)))
    all_goals exact .inl (step_of_mem ((List.cons_prefix_cons.1 prior).2.subset (by simp)))

theorem components_rebuilt {components : List Component} (before : components <+: p.components) :
    (components.foldl (fun (root : Path) component => root.child component.text)
      (Path.mk "")).components = components := by
  induction components using List.reverseRecOn with
  | nil => rfl
  | append_singleton components last ih =>
    have kept := ih ((List.prefix_append components [last]).trans before)
    rw [List.foldl_append, List.foldl_cons, List.foldl_nil]
    obtain ⟨text, step, rfl⟩ | ⟨rfl, rfl | rfl⟩ := exists_step_of_concat before
    · rw [text_stepComponent, components_child _ step, kept]
    · rfl
    · rfl

theorem dropSilent_begins (pieces : List (List Char)) : dropSilent pieces <+: pieces := by
  rw [dropSilent, ← List.reverse_suffix, List.reverse_reverse]
  exact List.dropWhile_suffix _

theorem filterMap_split_join (free : ∀ piece ∈ pieces, '/' ∉ piece) :
    (Text.split '/' (Text.join ['/'] pieces)).filterMap pieceComponent =
      pieces.filterMap pieceComponent := by
  rw [Text.join_eq_intercalate]
  cases pieces with
  | nil => rfl
  | cons piece rest => rw [Text.split_intercalate (List.cons_ne_nil piece rest) free]

theorem startOf_split_join {more : List (List Char)} (free : ∀ piece ∈ pieces, '/' ∉ piece)
    (whole : startOf (pieces ++ more) = []) :
    startOf (Text.split '/' (Text.join ['/'] pieces)) = [] := by
  by_cases nonempty : pieces = []
  · subst nonempty
    rfl
  · rw [Text.join_eq_intercalate, Text.split_intercalate nonempty free]
    by_cases silent : pieces = [[]]
    · subst silent
      rfl
    · rwa [← startOf_append nonempty silent more]

theorem pieces_cases (p : Path) : (∀ piece ∈ p.pieces.2, '/' ∉ piece) ∧
    (p.pieces.1 = some .root ∨ p.pieces.1 = some .here ∨
      p.pieces.1 = none ∧ startOf p.pieces.2 = []) := by
  have free := Text.not_mem_of_mem_split '/' p.spelling.toList
  rw [Path.pieces]
  generalize Text.split '/' p.spelling.toList = pieces at free ⊢
  split
  · exact ⟨fun piece member => free piece (List.mem_cons_of_mem _ member), .inl rfl⟩
  · exact ⟨fun piece member => free piece (List.mem_cons_of_mem _ member), .inr (.inl rfl)⟩
  · next absolute here =>
    refine ⟨free, .inr (.inr ⟨rfl, ?_⟩)⟩
    rw [startOf]
    · exact fun piece rest => absolute piece rest
    · exact fun rest => here rest

theorem startsWith_parent? (found : p.parent? = some q) : p.startsWith q = true := by
  obtain ⟨free, start⟩ := pieces_cases p
  have told : p.components = p.pieces.1.toList ++ p.pieces.2.filterMap pieceComponent := rfl
  rw [startsWith_iff, told]
  unfold parent? at found
  clear told
  generalize p.pieces = parts at found start free ⊢
  obtain ⟨first, pieces⟩ := parts
  have before : dropSilent (dropSilent pieces).dropLast <+: pieces :=
    (dropSilent_begins _).trans ((List.dropLast_prefix _).trans (dropSilent_begins _))
  have kept : ∀ piece ∈ dropSilent (dropSilent pieces).dropLast, '/' ∉ piece :=
    fun piece member => free piece (before.subset member)
  have behind := before.filterMap pieceComponent
  dsimp only at found start ⊢
  cases silent : (dropSilent pieces).isEmpty with
  | true =>
    rcases start with rfl | rfl | ⟨rfl, -⟩
    · simp [silent] at found
    · simp only [silent, Option.some.injEq] at found
      subst found
      exact List.nil_prefix
    · simp [silent] at found
  | false =>
    rcases start with rfl | rfl | ⟨rfl, plain⟩
    all_goals simp only [silent, Option.some.injEq] at found
    · have spelled : q.spelling.toList =
          '/' :: Text.join ['/'] (dropSilent (dropSilent pieces).dropLast) := by
        simp [← found]
      rw [components_of_toList spelled, filterMap_split_join kept]
      simpa using behind
    · subst found
      split_ifs
      · exact List.prefix_append [Component.here] _
      · have split : Text.split '/' ('.' :: '/' ::
            Text.join ['/'] (dropSilent (dropSilent pieces).dropLast)) =
              ['.'] :: Text.split '/' (Text.join ['/'] (dropSilent (dropSilent pieces).dropLast)) :=
          Text.split_append_cons '/' ['.'] _
        rw [components_eq, String.toList_ofList, split]
        simpa [startOf, pieceComponent, filterMap_split_join kept] using behind
    · subst found
      obtain ⟨more, whole⟩ := before
      rw [← whole] at plain
      rw [components_eq, String.toList_ofList, startOf_split_join kept plain,
        filterMap_split_join kept]
      simpa using behind

theorem not_isAbsolute_join (relative : p.isAbsolute = false) (other : q.isAbsolute = false) :
    (p.join q).isAbsolute = false := by
  unfold join
  split_ifs with replaced
  · exact other
  all_goals
    have nonempty : p.spelling.toList ≠ [] := by
      simpa using (not_or.1 replaced).2
    obtain ⟨c, rest, text⟩ := List.exists_cons_of_ne_nil nonempty
    simpa [isAbsolute, text] using relative

-- Joined pieces start with a slash only if the first of them is empty.
theorem head?_intercalate (free : ∀ piece ∈ pieces, '/' ∉ piece) (spoken : pieces.head? ≠ some []) :
    (['/'].intercalate pieces).head? ≠ some '/' := by
  cases pieces with
  | nil => simp
  | cons first rest =>
    have nonempty : first ≠ [] := fun silent => spoken (by simp [silent])
    obtain ⟨c, more, rfl⟩ := List.exists_cons_of_ne_nil nonempty
    have other : c ≠ '/' := fun same => free _ List.mem_cons_self (by simp [same])
    cases rest <;> simp [List.intercalate_cons_cons, other]

theorem pieces_of_relative (relative : p.isAbsolute = false) :
    (p.pieces.1 = none ∧ (p.pieces.2.head? = some [] → p.pieces.2 = [[]]) ∨
      p.pieces.1 = some .here) ∧ ∀ piece ∈ p.pieces.2, '/' ∉ piece := by
  have free := Text.not_mem_of_mem_split '/' p.spelling.toList
  have joined := Text.split_join '/' p.spelling.toList
  rw [Path.pieces]
  generalize Text.split '/' p.spelling.toList = pieces at free joined ⊢
  split
  · next piece rest =>
    simp [isAbsolute, ← joined, Text.join] at relative
  · exact ⟨.inr rfl, fun piece member => free piece (List.mem_cons_of_mem _ member)⟩
  · next absolute here =>
    refine ⟨.inl ⟨rfl, fun silent => ?_⟩, free⟩
    obtain ⟨rest, rfl⟩ := List.head?_eq_some_iff.1 silent
    cases rest with
    | nil => rfl
    | cons piece rest => exact absurd rfl (absolute piece rest)

theorem not_isAbsolute_parent? (relative : p.isAbsolute = false) (found : p.parent? = some q) :
    q.isAbsolute = false := by
  obtain ⟨start, free⟩ := pieces_of_relative relative
  unfold parent? at found
  generalize p.pieces = parts at found start free
  obtain ⟨first, pieces⟩ := parts
  have before : dropSilent (dropSilent pieces).dropLast <+: pieces :=
    (dropSilent_begins _).trans ((List.dropLast_prefix _).trans (dropSilent_begins _))
  have kept : ∀ piece ∈ dropSilent (dropSilent pieces).dropLast, '/' ∉ piece :=
    fun piece member => free piece (before.subset member)
  dsimp only at found start
  rcases start with ⟨rfl, whole⟩ | rfl
  · cases silent : (dropSilent pieces).isEmpty with
    | true => simp [silent] at found
    | false =>
      simp only [silent, Option.some.injEq] at found
      subst found
      rw [isAbsolute, String.toList_ofList, decide_eq_false_iff_not, Text.join_eq_intercalate]
      refine head?_intercalate kept fun nothing => ?_
      obtain ⟨rest, empty⟩ := List.head?_eq_some_iff.1 nothing
      obtain ⟨behind, same⟩ := before
      rw [← same, empty] at whole
      have only := whole rfl
      rw [← empty, same] at only
      rw [only] at silent
      exact absurd silent (by decide)
  · cases silent : (dropSilent pieces).isEmpty with
    | true =>
      simp only [silent, Option.some.injEq] at found
      subst found
      rfl
    | false =>
      simp only [silent, Option.some.injEq] at found
      subst found
      rw [isAbsolute, String.toList_ofList]
      split_ifs <;> simp

theorem not_isAbsolute_text {component : Component} (relative : p.isAbsolute = false)
    (member : component ∈ p.components) : (Path.mk component.text).isAbsolute = false := by
  obtain ⟨start, free⟩ := pieces_of_relative relative
  have told : component ∈ p.pieces.1.toList ++ p.pieces.2.filterMap pieceComponent := member
  rcases List.mem_append.1 told with isStart | isPiece
  · rcases start with ⟨none, -⟩ | here
    · simp [none] at isStart
    · obtain rfl : component = .here := by simpa [here] using isStart
      rfl
  · obtain ⟨piece, inside, isComponent⟩ := List.mem_filterMap.1 isPiece
    obtain ⟨text, step, -, rfl⟩ := exists_of_pieceComponent (free piece inside) isComponent
    rw [text_stepComponent]
    exact not_isAbsolute_of_step step

theorem isAbsolute_iff : p.isAbsolute = true ↔ .root ∈ p.components := by
  constructor
  · intro absolute
    obtain ⟨texts, -, found⟩ := exists_components absolute
    simp [found]
  · intro member
    by_contra relative
    have text := not_isAbsolute_text (by simpa using relative) member
    exact absurd text (by decide)

theorem not_isAbsolute_foldl_child {texts : List String} (relative : p.isAbsolute = false)
    (others : ∀ text ∈ texts, (Path.mk text).isAbsolute = false) :
    (texts.foldl child p).isAbsolute = false := by
  induction texts generalizing p with
  | nil => exact relative
  | cons text rest ih =>
    obtain ⟨first, later⟩ := List.forall_mem_cons.1 others
    exact ih (not_isAbsolute_join relative first) later

theorem isAbsolute_of_foldl_child {texts : List String} (steps : ∀ text ∈ texts, IsStep text)
    (absolute : (texts.foldl child p).isAbsolute = true) : p.isAbsolute = true := by
  by_contra relative
  have onward := not_isAbsolute_foldl_child (by simpa using relative) fun text member =>
    not_isAbsolute_of_step (steps text member)
  simp [onward] at absolute

theorem not_isAbsolute_foldl_normalStep {components : List Component}
    (others : ∀ component ∈ components, (Path.mk component.text).isAbsolute = false)
    (relative : p.isAbsolute = false) : (components.foldl normalStep p).isAbsolute = false := by
  induction components generalizing p with
  | nil => exact relative
  | cons component rest ih =>
    obtain ⟨first, later⟩ := List.forall_mem_cons.1 others
    refine ih later ?_
    cases component with
    | root => exact absurd first (by decide)
    | here => exact relative
    | up =>
      rw [normalStep]
      cases found : p.parent? with
      | none => exact not_isAbsolute_join relative first
      | some parent => exact not_isAbsolute_parent? relative found
    | name text => exact not_isAbsolute_join relative first

theorem not_isAbsolute_normalize (relative : p.isAbsolute = false) :
    p.normalize.isAbsolute = false :=
  not_isAbsolute_foldl_normalStep (fun _ member => not_isAbsolute_text relative member) rfl

end UtilityCss.Path
