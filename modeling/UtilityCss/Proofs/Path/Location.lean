import Mathlib.Data.List.Perm.Subperm
import Mathlib.Data.List.TakeWhile
import UtilityCss.Proofs.FileTree

set_option autoImplicit false

namespace UtilityCss

open UtilityCss.Path FileTree

variable {tree : FileTree} {p : Path} {text : String} {texts place done : List String}
  {piece : List Char} {pieces : List (List Char)}

def Spells (place texts : List String) : Prop := texts = place ∨ texts = ".." :: place

theorem isStep_up : IsStep ".." := by decide

theorem Spells.isStep (areNames : ∀ name ∈ place, IsName name) (spells : Spells place texts) :
    ∀ text ∈ texts, IsStep text := by
  rcases spells with rfl | rfl
  · exact steps_of_names areNames
  · exact List.forall_mem_cons.2 ⟨isStep_up, steps_of_names areNames⟩

def onward (place : List String) (component : Component) : List String :=
  (Location.follow ⟨true, 0, place⟩ component).names

@[simp] theorem onward_up (place : List String) : onward place .up = place.dropLast := by
  cases place <;> simp [onward, Location.follow]

@[simp] theorem onward_name (place : List String) (text : String) :
    onward place (.name text) = place ++ [text] := rfl

theorem follow_absolute (place : List String) (component : Component) :
    Location.follow ⟨true, 0, place⟩ component = ⟨true, 0, onward place component⟩ := by
  cases component with
  | up => cases place <;> simp [onward, Location.follow]
  | _ => rfl

theorem foldl_follow (place : List String) (components : List Component) :
    components.foldl Location.follow ⟨true, 0, place⟩ =
      ⟨true, 0, components.foldl onward place⟩ := by
  induction components generalizing place with
  | nil => rfl
  | cons component rest ih => rw [List.foldl_cons, follow_absolute, ih, List.foldl_cons]

theorem location_of_components (found : p.components = .root :: texts.map stepComponent) :
    p.location = ⟨true, 0, (texts.map stepComponent).foldl onward []⟩ := by
  rw [location, found, List.foldl_cons]
  exact foldl_follow [] _

theorem isName_onward (areNames : ∀ name ∈ place, IsName name) (step : IsStep text) :
    ∀ name ∈ onward place (stepComponent text), IsName name := by
  by_cases up : text = ".."
  · rw [stepComponent, if_pos up, onward_up]
    exact fun name member => areNames name (List.dropLast_subset place member)
  · rw [stepComponent, if_neg up, onward_name]
    exact List.forall_mem_append.2 ⟨areNames, List.forall_mem_singleton.2 ⟨step, up⟩⟩

-- One step of normalising keeps a spelling of where the path leads, with no more bytes than it read.
theorem normalStep_spells (areNames : ∀ name ∈ place, IsName name) (spells : Spells place done)
    (step : IsStep text) : ∃ next, Spells (onward place (stepComponent text)) next ∧
      normalStep (pathOf done) (stepComponent text) = pathOf next ∧
      Node.bytesOf next ≤ Node.bytesOf done + Node.bytesOf [text] ∧ next ⊆ text :: done := by
  have isDone := spells.isStep areNames
  by_cases up : text = ".."
  · subst up
    have component : stepComponent ".." = .up := rfl
    rw [component, onward_up, normalStep]
    rcases List.eq_nil_or_concat done with rfl | ⟨before, last, rfl⟩
    · -- Above the root a step up stays.
      obtain rfl : place = [] := by simpa [Spells, eq_comm] using spells
      exact ⟨[".."], .inr rfl, rfl, by simp [Node.bytesOf], by simp⟩
    · rw [List.concat_eq_append] at spells isDone ⊢
      obtain ⟨kept, own⟩ := List.forall_mem_append.1 isDone
      refine ⟨before, ?_, by rw [parent?_pathOf kept (own last (by simp))]; rfl, ?_,
        fun other member => List.mem_cons_of_mem _ (List.mem_append_left _ member)⟩
      · rcases spells with rfl | same
        · exact .inl (List.dropLast_concat).symm
        · rcases List.eq_nil_or_concat place with rfl | ⟨names, name, rfl⟩
          · have alone : before ++ [last] = [] ++ [".."] := same
            exact .inl (List.append_inj' alone rfl).1
          · rw [List.concat_eq_append, ← List.cons_append] at same
            rw [List.concat_eq_append, List.dropLast_concat]
            exact .inr (List.append_inj' same rfl).1
      · rw [Node.bytesOf_append]
        omega
  · have component : stepComponent text = .name text := if_neg up
    rw [component, onward_name, normalStep, child_pathOf isDone step]
    refine ⟨done ++ [text], ?_, rfl, ?_, by simp⟩
    · rcases spells with rfl | rfl
      · exact .inl rfl
      · exact .inr rfl
    · rw [Node.bytesOf_append]

theorem foldl_normalStep_spells (steps : ∀ text ∈ texts, IsStep text)
    (areNames : ∀ name ∈ place, IsName name) (spells : Spells place done) :
    ∃ next, (∀ name ∈ (texts.map stepComponent).foldl onward place, IsName name) ∧
      Spells ((texts.map stepComponent).foldl onward place) next ∧
      (texts.map stepComponent).foldl normalStep (pathOf done) = pathOf next ∧
      Node.bytesOf next ≤ Node.bytesOf done + Node.bytesOf texts ∧ next ⊆ texts ++ done := by
  induction texts generalizing place done with
  | nil => exact ⟨done, areNames, spells, rfl, by simp, by simp⟩
  | cons text rest ih =>
    obtain ⟨step, others⟩ := List.forall_mem_cons.1 steps
    obtain ⟨middle, isMiddle, same, less, inside⟩ := normalStep_spells areNames spells step
    obtain ⟨next, names, isNext, equal, bytes, within⟩ :=
      ih others (isName_onward areNames step) isMiddle
    refine ⟨next, names, isNext, by rw [List.map_cons, List.foldl_cons, same, equal], ?_, ?_⟩
    · simp only [Node.bytesOf] at less ⊢
      omega
    · intro other member
      rcases List.mem_append.1 (within member) with later | earlier
      · exact List.mem_append_left _ (List.mem_cons_of_mem _ later)
      · rcases List.mem_cons.1 (inside earlier) with rfl | before
        · exact List.mem_append_left _ List.mem_cons_self
        · exact List.mem_append_right _ before

theorem exists_spelling_of_components (steps : ∀ text ∈ texts, IsStep text)
    (found : p.components = .root :: texts.map stepComponent) :
    ∃ next, (∀ name ∈ p.location.names, IsName name) ∧ Spells p.location.names next ∧
      p.normalize = pathOf next ∧ Node.bytesOf next ≤ Node.bytesOf texts ∧
      ∀ text ∈ next, text ∈ texts := by
  obtain ⟨next, names, spells, equal, bytes, inside⟩ :=
    foldl_normalStep_spells steps (List.forall_mem_nil IsName) (.inl rfl)
  have start : normalStep ⟨""⟩ .root = pathOf [] := rfl
  rw [location_of_components found]
  refine ⟨next, names, spells, ?_, by simpa [Node.bytesOf] using bytes,
    fun text member => by simpa using inside member⟩
  rw [Path.normalize, found, List.foldl_cons, start, equal]

theorem exists_spelling (absolute : p.isAbsolute = true) :
    ∃ next, (∀ name ∈ p.location.names, IsName name) ∧ Spells p.location.names next ∧
      p.normalize = pathOf next := by
  obtain ⟨texts, steps, found⟩ := exists_components absolute
  obtain ⟨next, names, spells, equal, -⟩ := exists_spelling_of_components steps found
  exact ⟨next, names, spells, equal⟩

theorem isAbsolute_normalize (absolute : p.isAbsolute = true) : p.normalize.isAbsolute = true := by
  obtain ⟨next, -, -, same⟩ := exists_spelling absolute
  exact same ▸ isAbsolute_pathOf next

theorem normalize_eq_of_same {q : Path} (absolute : p.isAbsolute = true)
    (other : q.isAbsolute = true) (same : p.normalize.same q.normalize = true) :
    p.normalize = q.normalize := by
  obtain ⟨first, areNames, spells, equal⟩ := exists_spelling absolute
  obtain ⟨second, others, spelled, equals⟩ := exists_spelling other
  rw [equal, equals, same_pathOf (spells.isStep areNames) (spelled.isStep others)] at same
  rw [equal, equals, same]

theorem location_pathOf (areNames : ∀ name ∈ place, IsName name) (spells : Spells place done) :
    (pathOf done).location.names = place := by
  have names (start : List String) :
      (place.map stepComponent).foldl onward start = start ++ place := by
    clear spells
    induction place generalizing start with
    | nil => simp
    | cons name rest ih =>
      obtain ⟨isName, others⟩ := List.forall_mem_cons.1 areNames
      rw [List.map_cons, List.foldl_cons, isName.component, onward_name, ih others,
        List.append_assoc, List.singleton_append]
  rw [location_of_components (components_pathOf (spells.isStep areNames))]
  rcases spells with rfl | rfl
  · exact names []
  · exact names []

theorem normalize_pathOf_up (isName : IsName text)
    (areNames : ∀ name ∈ texts, IsName name) :
    (pathOf (text :: ".." :: texts)).normalize = pathOf texts := by
  have steps := steps_of_names areNames
  have all : ∀ step ∈ text :: ".." :: texts, IsStep step :=
    List.forall_mem_cons.2 ⟨isName.toIsStep, List.forall_mem_cons.2 ⟨isStep_up, steps⟩⟩
  have root : normalStep ⟨""⟩ .root = pathOf [] := rfl
  have down : normalStep (pathOf []) (.name text) = pathOf [text] := by
    rw [normalStep, child_pathOf (List.forall_mem_nil IsStep) isName.toIsStep, List.nil_append]
  have back : normalStep (pathOf [text]) .up = pathOf [] := by
    have parent := parent?_pathOf (List.forall_mem_nil IsStep) isName.toIsStep
    rw [List.nil_append] at parent
    rw [normalStep, parent, Option.getD_some]
  have up : stepComponent ".." = .up := rfl
  have plain := normalize_pathOf areNames
  rw [Path.normalize, components_pathOf steps, List.foldl_cons, root] at plain
  rw [Path.normalize, components_pathOf all, List.map_cons, List.map_cons, List.foldl_cons,
    List.foldl_cons, List.foldl_cons, root, isName.component, up, down, back, plain]

structure IsFound (tree : FileTree) (place : List String) : Prop where
  isThere : (tree.nodeAt? place).isSome
  areNames : ∀ name ∈ place, IsName name ∧ name.utf8ByteSize ≤ longestName

theorem isFound_root (tree : FileTree) : IsFound tree [] := ⟨rfl, by simp⟩

theorem IsFound.step (isFound : IsFound tree place) (free : '/' ∉ piece)
    (led : tree.step place piece = .ok done) :
    IsFound tree done ∧ done = (pieceComponent piece).elim place (onward place) := by
  unfold FileTree.step at led
  split at led
  · next entries directory =>
    dsimp only at led
    split_ifs at led with silent up long listed
    -- A piece that is silent, a step up, and a name of the directory.
    · obtain rfl := Except.ok.inj led
      exact ⟨isFound, by simp [pieceComponent, silent]⟩
    · obtain rfl := Except.ok.inj led
      refine ⟨⟨nodeAt?_of_above isFound.isThere (List.dropLast_prefix place),
        fun name member => isFound.areNames name (List.dropLast_subset place member)⟩, ?_⟩
      simp [pieceComponent, up]
    · obtain rfl := Except.ok.inj led
      rw [not_or] at silent
      have step : IsStep (String.ofList piece) := by
        refine ⟨by simpa using silent.1, fun same => silent.2 ?_, by simpa using free⟩
        simpa using congrArg String.toList same
      have down : String.ofList piece ≠ ".." := fun same =>
        up (by simpa using congrArg String.toList same)
      obtain ⟨node, isNode⟩ := Option.isSome_iff_exists.1 (listed : (Table.get? _ entries).isSome)
      refine ⟨⟨?_, List.forall_mem_append.2 ⟨isFound.areNames, List.forall_mem_singleton.2
        ⟨⟨step, down⟩, Nat.not_lt.1 long⟩⟩⟩, ?_⟩
      · simp [nodeAt?_append, directory, Node.at?, isNode]
      · simp [pieceComponent, silent, up]
  · cases led

theorem IsFound.steps (isFound : IsFound tree place) (free : ∀ piece ∈ pieces, '/' ∉ piece)
    (led : pieces.foldlM tree.step place = .ok done) :
    IsFound tree done ∧ done = (pieces.filterMap pieceComponent).foldl onward place := by
  induction pieces generalizing place with
  | nil => exact Except.ok.inj led ▸ ⟨isFound, rfl⟩
  | cons piece rest ih =>
    obtain ⟨first, others⟩ := List.forall_mem_cons.1 free
    rw [List.foldlM_cons] at led
    obtain ⟨middle, next, led⟩ := bind_eq_ok.1 led
    obtain ⟨isMiddle, same⟩ := isFound.step first next
    obtain ⟨isDone, equal⟩ := ih isMiddle others led
    refine ⟨isDone, equal.trans ?_⟩
    rw [same]
    cases component : pieceComponent piece with
    | none => rw [List.filterMap_cons_none component]; rfl
    | some _ => rw [List.filterMap_cons_some component]; rfl

theorem foldlM_of_locate (absolute : p.isAbsolute = true) (located : tree.locate p = .ok place) :
    '\x00' ∉ p.spelling.toList ∧ p.spelling.utf8ByteSize ≤ longestPath ∧
      (Text.split '/' p.spelling.toList).foldlM tree.step [] = .ok place := by
  unfold locate at located
  split_ifs at located with zero empty long
  exact ⟨by simpa using zero, Nat.not_lt.1 long, located⟩

theorem location_of_locate (absolute : p.isAbsolute = true) (located : tree.locate p = .ok place) :
    IsFound tree place ∧ place = p.location.names := by
  obtain ⟨-, -, led⟩ := foldlM_of_locate absolute located
  obtain ⟨isFound, same⟩ :=
    (isFound_root tree).steps (Text.not_mem_of_mem_split '/' p.spelling.toList) led
  obtain ⟨rest, text⟩ := toList_of_isAbsolute absolute
  obtain ⟨texts, steps, found⟩ := exists_components absolute
  refine ⟨isFound, same.trans ?_⟩
  rw [location_of_components found]
  have pieces : (Text.split '/' p.spelling.toList).filterMap pieceComponent =
      texts.map stepComponent := by
    have components := components_of_toList text
    rw [found, List.cons.injEq] at components
    rw [components.2, text, ← List.nil_append ('/' :: rest), Text.split_append_cons]
    rfl
  rw [pieces]

theorem mem_join {c : Char} (member : piece ∈ pieces) (held : c ∈ piece) :
    c ∈ Text.join ['/'] pieces := by
  induction pieces with
  | nil => cases member
  | cons first rest ih =>
    cases rest with
    | nil => rwa [Text.join, ← List.mem_singleton.1 member]
    | cons next more =>
      rw [Text.join.eq_3 _ _ _ (List.cons_ne_nil next more), List.mem_append, List.mem_append]
      rcases List.mem_cons.1 member with rfl | later
      · exact .inl (.inl held)
      · exact .inr (ih later)

-- The bytes of pieces, each with a slash in front of it.
theorem utf8ByteSize_join (pieces : List (List Char)) (nonempty : pieces ≠ []) :
    1 + (String.ofList (Text.join ['/'] pieces)).utf8ByteSize =
      Node.bytesOf (pieces.map String.ofList) := by
  have slash : (String.ofList ['/']).utf8ByteSize = 1 := by decide
  induction pieces with
  | nil => exact absurd rfl nonempty
  | cons piece rest ih =>
    cases rest with
    | nil => simp [Text.join, Node.bytesOf]
    | cons next more =>
      have later := ih (List.cons_ne_nil next more)
      rw [Text.join.eq_3 _ _ _ (List.cons_ne_nil next more), String.ofList_append,
        String.utf8ByteSize_append, String.ofList_append, String.utf8ByteSize_append, slash]
      simp only [List.map_cons, Node.bytesOf] at later ⊢
      omega

theorem bytesOf_le (same : pieces.filterMap pieceComponent = texts.map stepComponent)
    (free : ∀ piece ∈ pieces, '/' ∉ piece) :
    Node.bytesOf texts ≤ Node.bytesOf (pieces.map String.ofList) := by
  induction pieces generalizing texts with
  | nil =>
    obtain rfl : texts = [] := by simpa using same.symm
    exact Nat.zero_le _
  | cons piece rest ih =>
    obtain ⟨first, others⟩ := List.forall_mem_cons.1 free
    rw [List.map_cons, Node.bytesOf]
    cases component : pieceComponent piece with
    | none =>
      rw [List.filterMap_cons_none component] at same
      exact (ih same others).trans (Nat.le_add_left _ _)
    | some _ =>
      rw [List.filterMap_cons_some component] at same
      cases texts with
      | nil => cases same
      | cons text more =>
        obtain ⟨rfl, tail⟩ := List.cons.inj same
        obtain ⟨own, -, rfl, equal⟩ := exists_of_pieceComponent first component
        obtain rfl := stepComponent_injective equal
        have later := ih tail others
        simp only [Node.bytesOf, String.ofList_toList]
        omega

theorem bytesOf_components_le (absolute : p.isAbsolute = true)
    (found : p.components = .root :: texts.map stepComponent) :
    Node.bytesOf texts ≤ p.spelling.utf8ByteSize := by
  obtain ⟨rest, text⟩ := toList_of_isAbsolute absolute
  have components := components_of_toList text
  rw [found, List.cons.injEq] at components
  have bound := bytesOf_le components.2.symm (Text.not_mem_of_mem_split '/' rest)
  rw [← utf8ByteSize_join _ (Text.split_ne_nil '/' rest), Text.split_join] at bound
  have whole : p.spelling = String.ofList ['/'] ++ String.ofList rest := by
    rw [← String.ofList_append, List.singleton_append, ← text, String.ofList_toList]
  rw [whole, String.utf8ByteSize_append]
  exact bound

theorem mem_spelling_of_component {c : Char} {text : String} (absolute : p.isAbsolute = true)
    (found : p.components = .root :: texts.map stepComponent) (isText : text ∈ texts)
    (held : c ∈ text.toList) : c ∈ p.spelling.toList := by
  obtain ⟨rest, spelled⟩ := toList_of_isAbsolute absolute
  have components := components_of_toList spelled
  rw [found, List.cons.injEq] at components
  have isComponent : stepComponent text ∈ (Text.split '/' rest).filterMap pieceComponent :=
    components.2 ▸ List.mem_map_of_mem isText
  obtain ⟨piece, isPiece, equal⟩ := List.mem_filterMap.1 isComponent
  obtain ⟨own, -, rfl, ownComponent⟩ :=
    exists_of_pieceComponent (Text.not_mem_of_mem_split '/' rest piece isPiece) equal
  obtain rfl := stepComponent_injective ownComponent
  refine spelled ▸ List.mem_cons_of_mem _ ?_
  rw [← Text.split_join '/' rest]
  exact mem_join isPiece held

theorem foldlM_step_of_spells (isFound : IsFound tree place) (spells : Spells place done) :
    (done.map String.toList).foldlM tree.step [] = .ok place := by
  have names : (place.map String.toList).foldlM tree.step [] = .ok place := by
    have led : (place.map String.toList).foldlM tree.step [] = .ok ([] ++ place) :=
      foldlM_step isFound.areNames (by simpa using isFound.isThere)
    rwa [List.nil_append] at led
  rcases spells with rfl | rfl
  · exact names
  · exact names

theorem locate_normalize (absolute : p.isAbsolute = true) (located : tree.locate p = .ok place) :
    tree.locate p.normalize = .ok place := by
  obtain ⟨isFound, rfl⟩ := location_of_locate absolute located
  obtain ⟨noZero, short, -⟩ := foldlM_of_locate absolute located
  obtain ⟨texts, steps, found⟩ := exists_components absolute
  obtain ⟨next, areNames, spells, same, bytes, inside⟩ := exists_spelling_of_components steps found
  have clean : '\x00' ∉ (pathOf next).spelling.toList := by
    intro member
    rcases mem_pathOf_iff.1 member with slash | ⟨text, isText, held⟩
    · exact absurd slash (by decide)
    · exact noZero (mem_spelling_of_component absolute found (inside text isText) held)
  -- The bytes of a path are counted as it is spelled, and its normal form has no more of them.
  have within : (pathOf next).spelling.utf8ByteSize ≤ longestPath := by
    by_cases root : next = []
    · subst root
      decide
    · rw [utf8ByteSize_pathOf next root]
      exact bytes.trans ((bytesOf_components_le absolute found).trans short)
  rw [same]
  exact locate_of_foldlM (spells.isStep areNames) clean within (foldlM_step_of_spells isFound spells)

theorem foldlM_texts_of_locate (steps : ∀ text ∈ texts, IsStep text)
    (located : tree.locate (pathOf texts) = .ok place) :
    (texts.map String.toList).foldlM tree.step [] = .ok place := by
  obtain ⟨-, -, led⟩ := foldlM_of_locate (isAbsolute_pathOf texts) located
  have root : tree.step [] [] = .ok [] := rfl
  rw [split_pathOf steps, List.foldlM_cons, root] at led
  split_ifs at led with none
  · subst none
    exact led
  · exact led

theorem locate_pathOf_append {names : List String} (proper : tree.Proper)
    (steps : ∀ text ∈ texts, IsStep text) (located : tree.locate (pathOf texts) = .ok place)
    (file : (tree.contentAt? (place ++ names)).isSome)
    (short : (pathOf (texts ++ names)).spelling.utf8ByteSize ≤ longestPath) :
    tree.locate (pathOf (texts ++ names)) = .ok (place ++ names) := by
  have found := isSome_nodeAt? file
  obtain ⟨-, further⟩ := List.forall_mem_append.1 (proper.isStep_of_file file)
  refine locate_of_foldlM (List.forall_mem_append.2 ⟨steps, further⟩) (fun member => ?_) short ?_
  · rcases mem_pathOf_iff.1 member with slash | ⟨text, isText, held⟩
    · exact absurd slash (by decide)
    rcases List.mem_append.1 isText with before | after
    · exact (foldlM_of_locate (isAbsolute_pathOf texts) located).1
        (mem_pathOf_iff.2 (.inr ⟨text, before, held⟩))
    · exact proper.noZero found text (List.mem_append_right place after) held
  · rw [List.map_append, List.foldlM_append, foldlM_texts_of_locate steps located]
    refine foldlM_step (fun name member => ?_) found
    obtain ⟨used, fits⟩ := proper.fits found name (List.mem_append_right place member)
    exact ⟨fits.isName, fits.short⟩

section Reading

variable {content : ByteArray}

theorem contentAt?_of_readBytes (absolute : p.isAbsolute = true)
    (read : tree.readBytes p = .ok content) :
    tree.locate p = .ok p.location.names ∧ tree.contentAt? p.location.names = some content := by
  obtain ⟨place, located, isFile⟩ := exists_of_readBytes read
  obtain ⟨-, rfl⟩ := location_of_locate absolute located
  exact ⟨located, isFile⟩

theorem utf8ByteSize_le_of_readBytes (absolute : p.isAbsolute = true)
    (read : tree.readBytes p = .ok content) : p.spelling.utf8ByteSize ≤ longestPath :=
  (foldlM_of_locate absolute (contentAt?_of_readBytes absolute read).1).2.1

theorem readBytes_normalize (absolute : p.isAbsolute = true)
    (read : tree.readBytes p = .ok content) : tree.readBytes p.normalize = .ok content := by
  obtain ⟨located, isFile⟩ := contentAt?_of_readBytes absolute read
  rw [readBytes, FileTree.node, locate_normalize absolute located, Except.bind,
    contentAt?_eq_some.1 isFile]

theorem isAbsolute_parent? {q : Path} (absolute : p.isAbsolute = true)
    (found : p.parent? = some q) : q.isAbsolute = true := by
  obtain ⟨rest, text⟩ := toList_of_isAbsolute absolute
  obtain ⟨piece, others, split⟩ := List.exists_cons_of_ne_nil (Text.split_ne_nil '/' rest)
  have cut : p.pieces = (some .root, piece :: others) := by simp [pieces, text, Text.split, split]
  rw [parent?, cut] at found
  dsimp only at found
  split at found
  · next same => cases same
  · cases found
  · obtain rfl := Option.some.inj found
    simp [isAbsolute]

theorem isSome_parent? (absolute : p.isAbsolute = true) (below : p.components ≠ [.root]) :
    p.parent?.isSome := by
  obtain ⟨rest, text⟩ := toList_of_isAbsolute absolute
  obtain ⟨piece, others, split⟩ := List.exists_cons_of_ne_nil (Text.split_ne_nil '/' rest)
  have cut : p.pieces = (some .root, piece :: others) := by simp [pieces, text, Text.split, split]
  have spoken : (dropSilent (piece :: others)).isEmpty = false := by
    rw [components_of_toList text, split, ne_eq, List.cons.injEq, List.filterMap_eq_nil_iff] at below
    rw [dropSilent, List.isEmpty_reverse, ← Bool.not_eq_true, List.isEmpty_iff,
      List.dropWhile_eq_nil_iff]
    exact fun silent => below ⟨rfl, fun piece member =>
      Option.isNone_iff_eq_none.1 (silent piece (List.mem_reverse.2 member))⟩
  simp [parent?, cut, spoken]

theorem isAbsolute_directory (absolute : p.isAbsolute = true)
    (read : tree.readBytes p = .ok content) : p.directory.isAbsolute = true := by
  have below : p.components ≠ [.root] := by
    intro bare
    obtain ⟨-, isFile⟩ := contentAt?_of_readBytes absolute read
    simp [location, bare, Location.follow, contentAt?, nodeAt?, Node.at?, FileTree.root] at isFile
  obtain ⟨parent, found⟩ := Option.isSome_iff_exists.1 (isSome_parent? absolute below)
  rw [directory, found]
  exact isAbsolute_parent? absolute found

end Reading

def IsNormal (p : Path) : Prop :=
  ∃ place texts, (∀ name ∈ place, IsName name) ∧ Spells place texts ∧ p = pathOf texts

theorem isNormal_normalize (absolute : p.isAbsolute = true) : IsNormal p.normalize := by
  obtain ⟨next, areNames, spells, same⟩ := exists_spelling absolute
  exact ⟨_, next, areNames, spells, same⟩

theorem IsNormal.isAbsolute (normal : IsNormal p) : p.isAbsolute = true := by
  obtain ⟨place, texts, areNames, spells, rfl⟩ := normal
  exact isAbsolute_pathOf texts

theorem length_le_of_files {paths : List Path} (normal : ∀ path ∈ paths, IsNormal path)
    (readable : ∀ path ∈ paths, ∃ content, tree.readBytes path = .ok content)
    (distinct : paths.Nodup) : paths.length ≤ 2 * tree.fileCount := by
  -- A normal form is the path of its place, with a step up in front or without.
  let places := tree.root.files.map Prod.fst
  have listed : paths ⊆ places.map pathOf ++ places.map fun place => pathOf (".." :: place) := by
    intro path member
    obtain ⟨content, read⟩ := readable path member
    obtain ⟨place, texts, areNames, spells, rfl⟩ := normal path member
    obtain ⟨-, isFile⟩ := contentAt?_of_readBytes (isAbsolute_pathOf texts) read
    rw [location_pathOf areNames spells] at isFile
    have isPlace : place ∈ places :=
      List.mem_map.2 ⟨_, Node.mem_files (contentAt?_eq_some.1 isFile), rfl⟩
    rcases spells with rfl | rfl
    · exact List.mem_append_left _ (List.mem_map_of_mem isPlace)
    · exact List.mem_append_right _ (List.mem_map.2 ⟨place, isPlace, rfl⟩)
  have bound := (List.subperm_of_subset distinct listed).length_le
  simp only [places, List.length_append, List.length_map] at bound
  rw [fileCount]
  omega

end UtilityCss
