import Mathlib.Logic.Function.Iterate
import UtilityCss.Project.Places
import UtilityCss.Proofs.FileTree.Directories
import UtilityCss.Proofs.Path.NormalForm

set_option autoImplicit false

namespace UtilityCss

open UtilityCss.Path FileTree

variable {tree : FileTree} {p : Path} {name : String} {texts names home dir : List String}
  {place : Location}

def FileTree.meantPlace (tree : FileTree) (p : Path) : List String :=
  (tree.workingPath.join p).location.names

namespace Path

/-- Where a path starts: at the root, or as far above the working directory as it goes up. -/
def origin (home : List String) (p : Path) : List String :=
  if p.isAbsolute then [] else List.dropLast^[p.reading.stepsUp] home

theorem onward_stepComponent (isReading : IsReading place) (text : String) (home : List String) :
    onward (List.dropLast^[place.stepsUp] home ++ place.names) (stepComponent text) =
      List.dropLast^[(place.follow (stepComponent text)).stepsUp] home ++
        (place.follow (stepComponent text)).names := by
  obtain ⟨absolute, count, names⟩ := place
  obtain rfl : absolute = false := isReading.relative
  unfold stepComponent
  split_ifs
  · rcases List.eq_nil_or_concat names with rfl | ⟨before, last, rfl⟩
    · simp [Location.follow, Function.iterate_succ_apply']
    · simp [Location.follow]
  · simp [Location.follow]

theorem foldl_onward (isReading : IsReading place) (steps : ∀ text ∈ texts, IsStep text)
    (home : List String) :
    (texts.map stepComponent).foldl onward (List.dropLast^[place.stepsUp] home ++ place.names) =
      List.dropLast^[((texts.map stepComponent).foldl Location.follow place).stepsUp] home ++
        ((texts.map stepComponent).foldl Location.follow place).names := by
  induction texts generalizing place with
  | nil => rfl
  | cons text rest ih =>
    obtain ⟨step, others⟩ := List.forall_mem_cons.1 steps
    rw [List.map_cons, List.foldl_cons, onward_stepComponent isReading, List.foldl_cons]
    exact ih (normalStep_textsOf isReading step false).1 others

theorem foldl_onward_pieces (p : Path) (home : List String) :
    ((Text.split '/' p.spelling.toList).filterMap pieceComponent).foldl onward home =
      List.dropLast^[p.reading.stepsUp] home ++ p.reading.names := by
  obtain ⟨texts, steps, pieces, same, -⟩ := exists_reading p
  have led := foldl_onward isReading_start (fun text member => (steps text member).1) home
  rw [← same, ← pieces] at led
  simpa [Location.start] using led

end Path

theorem meantPlace_eq
    (areNames : p.isAbsolute = false → ∀ name ∈ tree.workingDirectory, IsName name) :
    tree.meantPlace p = p.origin tree.workingDirectory ++ p.reading.names := by
  rw [meantPlace, origin]
  cases absolute : p.isAbsolute with
  | true =>
    rw [Path.join, if_pos (.inl absolute), location_eq]
    rfl
  | false =>
    have nonempty : tree.workingPath.spelling ≠ "" := by
      intro empty
      simpa [workingPath, toList_pathOf] using congrArg String.toList empty
    have home := areNames absolute
    have start := foldl_follow_names home ⟨true, 0, []⟩
    rw [location, components_join absolute nonempty, workingPath,
      components_pathOf (steps_of_names home), List.foldl_append, List.foldl_cons,
      Location.follow, start, List.nil_append, foldl_follow, foldl_onward_pieces]
    rfl

theorem parts_of_locate (located : tree.locate p = .ok dir) :
    '\x00' ∉ p.spelling.toList ∧ p.spelling ≠ "" ∧ p.spelling.utf8ByteSize ≤ longestPath ∧
      (Text.split '/' p.spelling.toList).foldlM tree.step
        (if p.isAbsolute then [] else tree.workingDirectory) = .ok dir := by
  unfold locate at located
  split_ifs at located with zero empty long absolute
  · exact ⟨by simpa using zero, empty, Nat.not_lt.1 long, by rwa [if_pos absolute]⟩
  · exact ⟨by simpa using zero, empty, Nat.not_lt.1 long, by rwa [if_neg absolute]⟩

theorem exists_entries_of_foldlM {pieces : List (List Char)} (nonempty : pieces ≠ [])
    (led : pieces.foldlM tree.step home = .ok dir) :
    ∃ entries, tree.nodeAt? home = some (.directory entries) := by
  obtain ⟨first, rest, rfl⟩ := List.exists_cons_of_ne_nil nonempty
  rw [List.foldlM_cons] at led
  obtain ⟨next, first, -⟩ := bind_eq_ok.1 led
  exact exists_entries_of_step first

theorem isFound_of_nodeAt? (proper : tree.Proper) (found : (tree.nodeAt? dir).isSome) :
    IsFound tree dir := by
  refine ⟨found, fun name member => ?_⟩
  obtain ⟨used, fits⟩ := proper.fits found name member
  exact ⟨fits.isName, fits.short⟩

theorem isFound_home (proper : tree.Proper) (located : tree.locate p = .ok dir)
    (relative : p.isAbsolute = false) : IsFound tree tree.workingDirectory := by
  obtain ⟨-, -, -, led⟩ := parts_of_locate located
  rw [relative, if_neg Bool.false_ne_true] at led
  obtain ⟨entries, isHome⟩ :=
    exists_entries_of_foldlM (Text.split_ne_nil '/' p.spelling.toList) led
  exact isFound_of_nodeAt? proper (by rw [isHome]; rfl)

theorem isFound_of_locate (proper : tree.Proper) (located : tree.locate p = .ok dir) :
    IsFound tree dir ∧ dir = p.origin tree.workingDirectory ++ p.reading.names := by
  cases absolute : p.isAbsolute with
  | true =>
    obtain ⟨isFound, same⟩ := location_of_locate absolute located
    refine ⟨isFound, same.trans ?_⟩
    rw [location_eq, origin, absolute]
    rfl
  | false =>
    obtain ⟨-, -, -, led⟩ := parts_of_locate located
    rw [absolute, if_neg Bool.false_ne_true] at led
    have isFound := isFound_home proper located absolute
    obtain ⟨isDone, same⟩ := isFound.steps (Text.not_mem_of_mem_split '/' p.spelling.toList) led
    refine ⟨isDone, same.trans ?_⟩
    rw [foldl_onward_pieces, origin, if_neg (by simp [absolute])]

theorem utf8ByteSize_relativeOf (nonempty : texts ≠ []) :
    1 + (relativeOf texts).spelling.utf8ByteSize = Node.bytesOf texts := by
  have slash : "/".utf8ByteSize = 1 := by decide
  rw [← utf8ByteSize_pathOf texts nonempty, pathOf, String.utf8ByteSize_append, slash]
  rfl

theorem textsOf_reading_le (p : Path) :
    Node.bytesOf (textsOf p.reading) ≤ 1 + p.spelling.utf8ByteSize ∧
      ∀ text ∈ textsOf p.reading, ∀ c ∈ text.toList, c ∈ p.spelling.toList := by
  obtain ⟨texts, steps, pieces, same, -⟩ := exists_reading p
  have areSteps : ∀ text ∈ texts, IsStep text := fun text member => (steps text member).1
  have free := Text.not_mem_of_mem_split '/' p.spelling.toList
  have whole := Text.split_join '/' p.spelling.toList
  -- The absolute path of the same steps has the same texts in its normal form.
  obtain ⟨next, areNames, spells, normal, less, inside⟩ :=
    exists_spelling_of_components (p := pathOf texts) areSteps (components_pathOf areSteps)
  have again : (pathOf texts).normalize = pathOf (textsOf p.reading) := by
    rw [normalize_eq, isAbsolute_pathOf, same, ← reading_spelled areSteps true]
    rfl
  obtain rfl : next = textsOf p.reading :=
    eq_of_pathOf_eq (spells.isStep areNames) (isReading_reading p).isStep (normal.symm.trans again)
  constructor
  · have bytes := bytesOf_le pieces free
    rw [← utf8ByteSize_join _ (Text.split_ne_nil '/' p.spelling.toList), whole,
      String.ofList_toList] at bytes
    exact less.trans bytes
  · intro text member c held
    rw [← whole]
    exact mem_join (steps text (inside text member)).2 held

theorem mem_relativeOf {c : Char} (member : c ∈ (relativeOf texts).spelling.toList) :
    c = '/' ∨ ∃ text ∈ texts, c ∈ text.toList :=
  mem_pathOf_iff.1 (toList_pathOf_relativeOf texts ▸ List.mem_cons_of_mem '/' member)

-- One step up from the working directory is the most that a normal form has.
theorem foldlM_textsOf {entries : List (String × Node)}
    (isHome : tree.nodeAt? tree.workingDirectory = some (.directory entries))
    (isFound : IsFound tree dir) (few : place.stepsUp ≤ 1)
    (same : dir = List.dropLast^[place.stepsUp] tree.workingDirectory ++ place.names) :
    ((textsOf place).map String.toList).foldlM tree.step tree.workingDirectory = .ok dir := by
  subst same
  have down : (place.names.map String.toList).foldlM tree.step
      (List.dropLast^[place.stepsUp] tree.workingDirectory) = .ok _ :=
    foldlM_step (fun name member => isFound.areNames name (List.mem_append_right _ member))
      isFound.isThere
  obtain none | one : place.stepsUp = 0 ∨ place.stepsUp = 1 := by omega
  · rw [none] at down ⊢
    simpa [textsOf, none] using down
  · have up : tree.step tree.workingDirectory "..".toList = .ok tree.workingDirectory.dropLast := by
      rw [step, isHome]
      rfl
    rw [one] at down ⊢
    rw [textsOf, one, List.replicate_one, List.singleton_append, List.map_cons, List.foldlM_cons, up]
    exact down

theorem locate_normalForm (proper : tree.Proper) (few : p.location.stepsUp ≤ 1)
    (spoken : p.normalize.spelling ≠ "") (located : tree.locate p = .ok dir) :
    tree.locate p.normalize = .ok dir := by
  cases absolute : p.isAbsolute with
  | true => exact locate_normalize absolute located
  | false =>
    obtain ⟨isFound, same⟩ := isFound_of_locate proper located
    obtain ⟨noZero, -, short, led⟩ := parts_of_locate located
    rw [absolute, if_neg Bool.false_ne_true] at led
    obtain ⟨entries, isHome⟩ :=
      exists_entries_of_foldlM (Text.split_ne_nil '/' p.spelling.toList) led
    obtain ⟨bytes, inside⟩ := textsOf_reading_le p
    have isReading := isReading_reading p
    have normal : p.normalize = relativeOf (textsOf p.reading) := by
      rw [normalize_eq, absolute]
      rfl
    have nonempty : textsOf p.reading ≠ [] := by
      rw [normal] at spoken
      exact (spelling_relativeOf_eq_empty isReading.isStep).not.1 spoken
    rw [location_eq, if_neg (by simp [absolute])] at few
    rw [origin, if_neg (by simp [absolute])] at same
    have way : ((textsOf p.reading).map String.toList).foldlM tree.step tree.workingDirectory =
        .ok dir := foldlM_textsOf isHome isFound few same
    have clean : (relativeOf (textsOf p.reading)).spelling.toList.contains '\x00' = false := by
      rw [← Bool.not_eq_true, List.contains_iff_mem]
      intro member
      rcases mem_relativeOf member with slash | ⟨text, isText, held⟩
      · exact absurd slash (by decide)
      · exact noZero (inside text isText _ held)
    have size := utf8ByteSize_relativeOf nonempty
    have within : (relativeOf (textsOf p.reading)).spelling.utf8ByteSize ≤ longestPath := by omega
    have relative : (relativeOf (textsOf p.reading)).isAbsolute = false :=
      normal ▸ not_isAbsolute_normalize absolute
    rw [normal, locate, clean, if_neg Bool.false_ne_true, if_neg (normal ▸ spoken),
      if_neg (Nat.not_lt.2 within), split_relativeOf isReading.isStep, if_neg nonempty, relative,
      if_neg Bool.false_ne_true, way]

theorem utf8ByteSize_le_child (p : Path) (step : IsStep name) :
    p.spelling.utf8ByteSize ≤ (p.child name).spelling.utf8ByteSize := by
  rw [child, join]
  split_ifs with replaced
  · have empty : p.spelling = "" :=
      replaced.resolve_left (by simp [not_isAbsolute_of_step step])
    simp [empty]
  all_goals
    simp only [String.utf8ByteSize_append]
    omega

theorem utf8ByteSize_le_foldl_child (p : Path) (steps : ∀ name ∈ names, IsStep name) :
    p.spelling.utf8ByteSize ≤ (names.foldl child p).spelling.utf8ByteSize := by
  induction names generalizing p with
  | nil => exact Nat.le_refl _
  | cons name rest ih =>
    obtain ⟨first, others⟩ := List.forall_mem_cons.1 steps
    exact (utf8ByteSize_le_child p first).trans (ih _ others)

theorem split_child (nonempty : p.spelling ≠ "") (step : IsStep name) :
    ∃ pieces, (Text.split '/' p.spelling.toList = pieces ∨
        Text.split '/' p.spelling.toList = pieces ++ [[]]) ∧
      Text.split '/' (p.child name).spelling.toList = pieces ++ [name.toList] := by
  have own : Text.split '/' name.toList = [name.toList] := Text.split_of_not_mem step.free
  rw [child, join, if_neg (by simp [not_isAbsolute_of_step step, nonempty])]
  split_ifs with slash
  · obtain ⟨start, whole⟩ := List.getLast?_eq_some_iff.1 slash
    refine ⟨Text.split '/' start, .inr ?_, ?_⟩
    · rw [whole, Text.split_append_cons]
      rfl
    · rw [String.toList_append, whole, List.append_assoc, List.singleton_append,
        Text.split_append_cons, own]
  · refine ⟨Text.split '/' p.spelling.toList, .inl rfl, ?_⟩
    have parted : (p.spelling ++ "/" ++ name).toList = p.spelling.toList ++ '/' :: name.toList := by
      simp
    rw [parted, Text.split_append_cons, own]

theorem isAbsolute_child (p : Path) (step : IsStep name) :
    (p.child name).isAbsolute = p.isAbsolute := by
  rw [Bool.eq_iff_iff, isAbsolute_iff, isAbsolute_iff, components_child p step, List.mem_append,
    List.mem_singleton, or_iff_left]
  exact fun same => not_mem_map_stepComponent [name] (by simp [same])

theorem mem_child {c : Char} (nonempty : p.spelling ≠ "") (step : IsStep name)
    (member : c ∈ (p.child name).spelling.toList) :
    c ∈ p.spelling.toList ∨ c = '/' ∨ c ∈ name.toList := by
  rw [child, join, if_neg (by simp [not_isAbsolute_of_step step, nonempty])] at member
  split_ifs at member
  · exact (List.mem_append.1 (by simpa using member)).imp_right .inr
  · simpa [or_assoc] using member

theorem locate_child (proper : tree.Proper) (located : tree.locate p = .ok dir)
    (found : (tree.nodeAt? (dir ++ [name])).isSome)
    (short : (p.child name).spelling.utf8ByteSize ≤ longestPath) :
    tree.locate (p.child name) = .ok (dir ++ [name]) := by
  have last : name ∈ dir ++ [name] := by simp
  obtain ⟨used, fits⟩ := proper.fits found name last
  have step : IsStep name := fits.isName.toIsStep
  obtain ⟨noZero, nonempty, -, led⟩ := parts_of_locate located
  obtain ⟨pieces, ends, split⟩ := split_child nonempty step
  have clean : (p.child name).spelling.toList.contains '\x00' = false := by
    rw [← Bool.not_eq_true, List.contains_iff_mem]
    intro member
    rcases mem_child nonempty step member with own | slash | inName
    · exact noZero own
    · exact absurd slash (by decide)
    · exact fits.noZero inName
  have spoken : (p.child name).spelling ≠ "" := spelling_child_ne_empty p step
  have way : pieces.foldlM tree.step (if p.isAbsolute then [] else tree.workingDirectory) =
      .ok dir := by
    rcases ends with same | same
    · rwa [same] at led
    · rw [same, List.foldlM_append] at led
      obtain ⟨place, first, second⟩ := bind_eq_ok.1 led
      obtain ⟨next, silent, done⟩ := bind_eq_ok.1 second
      obtain ⟨entries, directory⟩ := exists_entries_of_step silent
      have stays : tree.step place [] = .ok place := by
        rw [FileTree.step, directory]
        rfl
      rw [stays] at silent
      rw [first, Except.ok.inj silent]
      exact done
  have onward : [name.toList].foldlM tree.step dir = .ok (dir ++ [name]) := by
    rw [List.foldlM_cons, step_of_nodeAt? fits.isName fits.short found]
    rfl
  rw [locate, clean, if_neg Bool.false_ne_true, if_neg spoken, if_neg (Nat.not_lt.2 short),
    isAbsolute_child p step, split, List.foldlM_append, way]
  exact onward

theorem readBytes_foldl_child {content : ByteArray} (proper : tree.Proper)
    (located : tree.locate p = .ok dir) (file : tree.contentAt? (dir ++ names) = some content)
    (short : (names.foldl child p).spelling.utf8ByteSize ≤ longestPath) :
    tree.readBytes (names.foldl child p) = .ok content := by
  have found : tree.nodeAt? (dir ++ names) = some (.file content) := contentAt?_eq_some.1 file
  have led : tree.locate (names.foldl child p) = .ok (dir ++ names) := by
    have there : (tree.nodeAt? (dir ++ names)).isSome := by rw [found]; rfl
    clear file found
    induction names generalizing p dir with
    | nil => rwa [List.append_nil]
    | cons name rest ih =>
      rw [List.append_cons] at there ⊢
      have steps := (List.forall_mem_append.1 (steps_of_names (proper.isName there))).2
      have first := locate_child proper located
        (nodeAt?_of_above there (List.prefix_append _ rest))
        ((utf8ByteSize_le_foldl_child _ steps).trans short)
      exact ih first short there
  rw [readBytes, node, led, Except.bind, found]

theorem reading_child (p : Path) (isName : IsName name) :
    (p.child name).reading = { p.reading with names := p.reading.names ++ [name] } := by
  have last : [stepComponent name].filter (· ≠ .root) = [.name name] := by simp [isName.component]
  rw [reading, components_child p isName.toIsStep, List.filter_append, last, List.foldl_append]
  rfl

theorem origin_child (p : Path) (isName : IsName name) (home : List String) :
    (p.child name).origin home = p.origin home := by
  rw [origin, origin, isAbsolute_child p isName.toIsStep, reading_child p isName]

theorem meantPlace_foldl_child (proper : tree.Proper) (located : tree.locate p = .ok dir)
    (areNames : ∀ name ∈ names, IsName name) :
    tree.meantPlace (names.foldl child p) = dir ++ names := by
  have home (relative : p.isAbsolute = false) : ∀ name ∈ tree.workingDirectory, IsName name :=
    fun name member => ((isFound_home proper located relative).areNames name member).1
  rw [(isFound_of_locate proper located).2, ← meantPlace_eq home]
  clear located
  induction names generalizing p with
  | nil => exact (List.append_nil _).symm
  | cons name rest ih =>
    obtain ⟨isName, others⟩ := List.forall_mem_cons.1 areNames
    have below : (p.child name).isAbsolute = false →
        ∀ name ∈ tree.workingDirectory, IsName name :=
      fun relative => home (isAbsolute_child p isName.toIsStep ▸ relative)
    rw [List.foldl_cons, ih others below, meantPlace_eq home, meantPlace_eq below,
      origin_child p isName, reading_child p isName]
    simp

theorem readBytes_child_iff {content : ByteArray} (proper : tree.Proper)
    (located : tree.locate p = .ok dir) (isName : IsName name)
    (short : (p.child name).spelling.utf8ByteSize ≤ longestPath) :
    tree.readBytes (p.child name) = .ok content ↔
      tree.contentAt? (dir ++ [name]) = some content := by
  constructor
  · intro read
    obtain ⟨place, led, file⟩ := exists_of_readBytes read
    obtain ⟨-, here⟩ := isFound_of_locate proper located
    obtain ⟨-, there⟩ := isFound_of_locate proper led
    rw [origin_child p isName, reading_child p isName, ← List.append_assoc, ← here] at there
    exact there ▸ file
  · intro file
    have read : tree.readBytes ([name].foldl child p) = .ok content :=
      readBytes_foldl_child proper located file short
    exact read

end UtilityCss
