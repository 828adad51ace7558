import Mathlib.Data.List.Infix
import UtilityCss.FileTree
import UtilityCss.Path.Normal
import UtilityCss.Proofs.Text.Cut

set_option autoImplicit false

namespace UtilityCss

namespace Path

structure IsStep (text : String) : Prop where
  nonempty : text ≠ ""
  moves : text ≠ "."
  free : '/' ∉ text.toList

structure IsName (text : String) : Prop extends IsStep text where
  down : text ≠ ".."

theorem steps_of_names {texts : List String} (names : ∀ text ∈ texts, IsName text) :
    ∀ text ∈ texts, IsStep text := fun text member => (names text member).toIsStep

instance (text : String) : Decidable (IsStep text) :=
  decidable_of_iff (text ≠ "" ∧ text ≠ "." ∧ '/' ∉ text.toList)
    ⟨fun ⟨nonempty, moves, free⟩ => ⟨nonempty, moves, free⟩,
      fun step => ⟨step.nonempty, step.moves, step.free⟩⟩

instance (text : String) : Decidable (IsName text) :=
  decidable_of_iff (text ≠ "" ∧ text ≠ "." ∧ '/' ∉ text.toList ∧ text ≠ "..")
    ⟨fun ⟨nonempty, moves, free, down⟩ => ⟨⟨nonempty, moves, free⟩, down⟩,
      fun name => ⟨name.nonempty, name.moves, name.free, name.down⟩⟩

def stepComponent (text : String) : Component := if text = ".." then .up else .name text

variable {text : String} {texts more : List String} {p q : Path}

theorem IsStep.toList_ne_nil (step : IsStep text) : text.toList ≠ [] := by
  simpa using step.nonempty

theorem IsStep.speaks (step : IsStep text) : ¬ (text.toList = [] ∨ text.toList = ['.']) := by
  rintro (nothing | here)
  · exact step.toList_ne_nil nothing
  · exact step.moves (by simpa using congrArg String.ofList here)

theorem toList_eq_up : text.toList = ['.', '.'] ↔ text = ".." := by
  rw [← String.toList_inj]
  rfl

theorem pieceComponent_toList (step : IsStep text) :
    pieceComponent text.toList = some (stepComponent text) := by
  rw [pieceComponent, if_neg step.speaks, stepComponent]
  simp only [toList_eq_up, String.ofList_toList]
  split_ifs <;> rfl

theorem exists_of_pieceComponent {piece : List Char} {component : Component}
    (free : '/' ∉ piece) (found : pieceComponent piece = some component) :
    ∃ text, IsStep text ∧ piece = text.toList ∧ component = stepComponent text := by
  have loud : piece ≠ [] ∧ piece ≠ ['.'] := by
    rw [← not_or]
    intro silent
    simp [pieceComponent, silent] at found
  have step : IsStep (String.ofList piece) := by
    refine ⟨by simpa using loud.1, fun same => loud.2 ?_, by simpa using free⟩
    simpa using congrArg String.toList same
  refine ⟨String.ofList piece, step, by simp, ?_⟩
  have own := pieceComponent_toList step
  rw [String.toList_ofList, found] at own
  exact Option.some.inj own

@[simp] theorem text_stepComponent (text : String) : (stepComponent text).text = text := by
  unfold stepComponent
  split_ifs with up
  · exact up.symm
  · rfl

theorem stepComponent_injective : Function.Injective stepComponent := fun first second same => by
  simpa using congrArg Component.text same

theorem IsName.component (name : IsName text) : stepComponent text = .name text :=
  if_neg name.down

end Path

open UtilityCss.Path FileTree

variable {text : String} {texts more : List String} {p q : Path}

theorem toList_pathOf (texts : List String) :
    (pathOf texts).spelling.toList = '/' :: ['/'].intercalate (texts.map String.toList) := by
  simp [pathOf, String.toList_append, String.toList_intercalate]

theorem spelling_pathOf_ne_empty (texts : List String) : (pathOf texts).spelling ≠ "" := by
  intro empty
  simpa [toList_pathOf] using congrArg String.toList empty

theorem split_pathOf (steps : ∀ text ∈ texts, IsStep text) :
    Text.split '/' (pathOf texts).spelling.toList =
      [] :: if texts = [] then [[]] else texts.map String.toList := by
  have free : ∀ piece ∈ texts.map String.toList, '/' ∉ piece :=
    List.forall_mem_map.2 fun text member => (steps text member).free
  rw [toList_pathOf, ← List.nil_append ('/' :: _), Text.split_append_cons]
  split_ifs with empty
  · subst empty
    rfl
  · rw [Text.split_intercalate (by simpa using empty) free]
    rfl

theorem pieces_pathOf (steps : ∀ text ∈ texts, IsStep text) :
    (pathOf texts).pieces = (some .root, if texts = [] then [[]] else texts.map String.toList) := by
  rw [pieces, split_pathOf steps]
  cases texts <;> rfl

theorem components_pathOf (steps : ∀ text ∈ texts, IsStep text) :
    (pathOf texts).components = .root :: texts.map stepComponent := by
  simp only [components, pieces_pathOf steps, Option.toList_some, List.singleton_append,
    List.cons.injEq, true_and]
  split_ifs with empty
  · subst empty
    rfl
  · rw [List.filterMap_map, ← List.filterMap_eq_map]
    apply List.filterMap_congr
    intro text member
    exact pieceComponent_toList (steps text member)

theorem not_isAbsolute_of_step (step : IsStep text) : (Path.mk text).isAbsolute = false := by
  obtain ⟨c, rest, found⟩ := List.exists_cons_of_ne_nil step.toList_ne_nil
  have free := step.free
  rw [found, List.mem_cons, not_or] at free
  simp [isAbsolute, found, Ne.symm free.1]

theorem toList_pathOf_concat (texts : List String) (text : String) :
    (pathOf (texts ++ [text])).spelling.toList =
      (if texts = [] then [] else (pathOf texts).spelling.toList) ++ '/' :: text.toList := by
  rw [toList_pathOf, toList_pathOf, List.map_append, List.map_singleton]
  split_ifs with empty
  · simp [empty]
  · rw [Text.intercalate_append ['/'] (by simpa using empty) (List.cons_ne_nil _ _)]
    simp

theorem mem_pathOf_iff {c : Char} :
    c ∈ (pathOf texts).spelling.toList ↔ c = '/' ∨ ∃ text ∈ texts, c ∈ text.toList := by
  induction texts using List.reverseRecOn with
  | nil => simp [toList_pathOf]
  | append_singleton before last ih =>
    rw [toList_pathOf_concat, List.mem_append, List.mem_cons]
    simp only [List.mem_append, List.mem_singleton, or_and_right, exists_or, exists_eq_left]
    split_ifs with empty
    · simp [empty]
    · rw [ih, ← or_or_distrib_left]

theorem ends_in_slash_iff (steps : ∀ text ∈ texts, IsStep text) :
    (pathOf texts).spelling.toList.getLast? = some '/' ↔ texts = [] := by
  rcases List.eq_nil_or_concat texts with rfl | ⟨before, last, rfl⟩
  · simp [toList_pathOf]
  · have step := steps last (by simp)
    obtain ⟨start, c, found⟩ : ∃ start c, last.toList = start ++ [c] :=
      ⟨_, _, (List.dropLast_append_getLast step.toList_ne_nil).symm⟩
    have free := step.free
    rw [found, List.mem_append, List.mem_singleton, not_or] at free
    rw [List.concat_eq_append, toList_pathOf_concat, found, ← List.cons_append, ← List.append_assoc,
      List.getLast?_concat]
    simp [Ne.symm free.2]

theorem child_pathOf (steps : ∀ text ∈ texts, IsStep text) (step : IsStep text) :
    (pathOf texts).child text = pathOf (texts ++ [text]) := by
  have relative := not_isAbsolute_of_step step
  have nonempty := spelling_pathOf_ne_empty texts
  have last := ends_in_slash_iff steps
  have whole : (pathOf (texts ++ [text])).spelling.toList = _ := toList_pathOf_concat texts text
  rw [child, join, if_neg (by simp [relative, nonempty])]
  by_cases root : texts = []
  · subst root
    rfl
  · rw [if_neg (fun slash => root (last.1 slash))]
    rw [if_neg root] at whole
    have same : (pathOf texts).spelling ++ "/" ++ text = (pathOf (texts ++ [text])).spelling := by
      rw [← String.toList_inj, whole]
      simp
    exact congrArg Path.mk same

theorem foldl_child_pathOf (steps : ∀ text ∈ texts, IsStep text)
    (further : ∀ text ∈ more, IsStep text) :
    more.foldl child (pathOf texts) = pathOf (texts ++ more) := by
  induction more generalizing texts with
  | nil => simp
  | cons first rest ih =>
    obtain ⟨step, others⟩ := List.forall_mem_cons.1 further
    rw [List.foldl_cons, child_pathOf steps step, ih _ others, List.append_assoc,
      List.singleton_append]
    exact List.forall_mem_append.2 ⟨steps, List.forall_mem_singleton.2 step⟩

theorem dropSilent_map (steps : ∀ text ∈ texts, IsStep text) :
    dropSilent (texts.map String.toList) = texts.map String.toList := by
  rcases List.eq_nil_or_concat texts with rfl | ⟨before, last, rfl⟩
  · rfl
  · have loud := pieceComponent_toList (steps last (by simp))
    simp [dropSilent, loud]

theorem parent?_pathOf (steps : ∀ text ∈ texts, IsStep text) (step : IsStep text) :
    (pathOf (texts ++ [text])).parent? = some (pathOf texts) := by
  have all : ∀ other ∈ texts ++ [text], IsStep other :=
    List.forall_mem_append.2 ⟨steps, List.forall_mem_singleton.2 step⟩
  have found := pieces_pathOf all
  rw [if_neg (by simp)] at found
  have nonempty : ((texts ++ [text]).map String.toList).isEmpty = false := by simp
  simp only [parent?, found, dropSilent_map all, nonempty]
  rw [List.map_append, List.map_singleton, List.dropLast_concat, dropSilent_map steps,
    Text.join_eq_intercalate, ← toList_pathOf, String.ofList_toList]

theorem fileName?_pathOf (steps : ∀ text ∈ texts, IsStep text) (isName : IsName text) :
    (pathOf (texts ++ [text])).fileName? = some text := by
  have all : ∀ other ∈ texts ++ [text], IsStep other :=
    List.forall_mem_append.2 ⟨steps, List.forall_mem_singleton.2 isName.toIsStep⟩
  rw [fileName?, components_pathOf all, List.map_append, List.map_singleton, ← List.cons_append,
    List.getLast?_concat, isName.component]

theorem normalize_pathOf (names : ∀ text ∈ texts, IsName text) :
    (pathOf texts).normalize = pathOf texts := by
  have steps := steps_of_names names
  have root : normalStep ⟨""⟩ .root = pathOf [] := rfl
  have onward : (texts.map stepComponent).foldl normalStep (pathOf []) =
      texts.foldl child (pathOf []) := by
    rw [List.foldl_map]
    apply List.foldl_ext
    intro done text member
    rw [(names text member).component]
    rfl
  rw [Path.normalize, components_pathOf steps, List.foldl_cons, root, onward,
    foldl_child_pathOf (by simp) steps, List.nil_append]

theorem exists_steps {pieces : List (List Char)} (free : ∀ piece ∈ pieces, '/' ∉ piece) :
    ∃ texts : List String, (∀ text ∈ texts, IsStep text ∧ text.toList ∈ pieces) ∧
      pieces.filterMap pieceComponent = texts.map stepComponent := by
  induction pieces with
  | nil => exact ⟨[], by simp, rfl⟩
  | cons piece others ih =>
    obtain ⟨first, later⟩ := List.forall_mem_cons.1 free
    obtain ⟨texts, steps, same⟩ := ih later
    have kept : ∀ text ∈ texts, IsStep text ∧ text.toList ∈ piece :: others :=
      fun text member => (steps text member).imp_right (List.mem_cons_of_mem piece)
    cases found : pieceComponent piece with
    | none => exact ⟨texts, kept, by rw [List.filterMap_cons_none found, same]⟩
    | some component =>
      obtain ⟨text, step, rfl, rfl⟩ := exists_of_pieceComponent first found
      refine ⟨text :: texts, List.forall_mem_cons.2 ⟨⟨step, List.mem_cons_self⟩, kept⟩, ?_⟩
      rw [List.filterMap_cons_some found, List.map_cons, same]

theorem toList_of_isAbsolute (absolute : p.isAbsolute = true) :
    ∃ rest, p.spelling.toList = '/' :: rest := by
  rwa [isAbsolute, decide_eq_true_eq, List.head?_eq_some_iff] at absolute

theorem components_of_toList {rest : List Char} (text : p.spelling.toList = '/' :: rest) :
    p.components = .root :: (Text.split '/' rest).filterMap pieceComponent := by
  obtain ⟨piece, others, split⟩ := List.exists_cons_of_ne_nil (Text.split_ne_nil '/' rest)
  simp [components, pieces, text, Text.split, split]

theorem exists_components (absolute : p.isAbsolute = true) :
    ∃ texts : List String, (∀ text ∈ texts, IsStep text) ∧
      p.components = .root :: texts.map stepComponent := by
  obtain ⟨rest, text⟩ := toList_of_isAbsolute absolute
  obtain ⟨texts, steps, same⟩ := exists_steps (Text.not_mem_of_mem_split '/' rest)
  exact ⟨texts, fun text member => (steps text member).1,
    by rw [components_of_toList text, same]⟩

theorem isAbsolute_pathOf (texts : List String) : (pathOf texts).isAbsolute = true := by
  simp [isAbsolute, toList_pathOf]

theorem normalize_of_components (steps : ∀ text ∈ texts, IsStep text)
    (found : p.components = .root :: texts.map stepComponent) :
    ∃ others, (∀ text ∈ others, IsStep text) ∧ p.normalize = pathOf others := by
  have onward (done : List String) (isDone : ∀ text ∈ done, IsStep text) :
      ∃ others, (∀ text ∈ others, IsStep text) ∧
        (texts.map stepComponent).foldl normalStep (pathOf done) = pathOf others := by
    clear found
    induction texts generalizing done with
    | nil => exact ⟨done, isDone, rfl⟩
    | cons first rest ih =>
      obtain ⟨step, later⟩ := List.forall_mem_cons.1 steps
      rw [List.map_cons, List.foldl_cons]
      by_cases up : first = ".."
      · have isUp : stepComponent first = .up := if_pos up
        rw [isUp]
        rcases List.eq_nil_or_concat done with rfl | ⟨before, last, rfl⟩
        · -- Above the root a step up stays.
          have root : normalStep (pathOf []) .up = pathOf [first] := by
            rw [up]
            rfl
          rw [root]
          exact ih later [first] (by simpa using step)
        · rw [List.concat_eq_append] at isDone ⊢
          have kept : ∀ text ∈ before, IsStep text :=
            fun text member => isDone text (List.mem_append_left _ member)
          rw [normalStep, parent?_pathOf kept (isDone last (by simp))]
          exact ih later before kept
      · have name : stepComponent first = .name first := if_neg up
        rw [name, normalStep, child_pathOf isDone step]
        exact ih later _ (List.forall_mem_append.2 ⟨isDone, List.forall_mem_singleton.2 step⟩)
  rw [Path.normalize, found, List.foldl_cons]
  exact onward [] (by simp)

theorem startsWith_iff : p.startsWith q = true ↔ q.components <+: p.components := by
  rw [startsWith, List.isPrefixOf_iff_prefix]

theorem startsWith_pathOf (steps : ∀ text ∈ texts, IsStep text)
    (others : ∀ text ∈ more, IsStep text) :
    (pathOf texts).startsWith (pathOf more) = true ↔ more <+: texts := by
  rw [startsWith_iff, components_pathOf steps, components_pathOf others, List.prefix_cons_inj]
  constructor
  · intro before
    simpa [Function.comp_def] using before.map Component.text
  · exact fun before => before.map stepComponent

theorem same_pathOf (steps : ∀ text ∈ texts, IsStep text) (others : ∀ text ∈ more, IsStep text) :
    (pathOf texts).same (pathOf more) = true ↔ texts = more := by
  rw [same, decide_eq_true_eq, components_pathOf steps, components_pathOf others]
  simp [List.map_inj_right fun _ _ same => stepComponent_injective same]

theorem eq_of_pathOf_eq (steps : ∀ text ∈ texts, IsStep text) (others : ∀ text ∈ more, IsStep text)
    (equal : pathOf texts = pathOf more) : texts = more := by
  rw [← same_pathOf steps others, equal]
  exact decide_eq_true rfl

end UtilityCss
