import UtilityCss.Project.Build
import UtilityCss.Proofs.FileTree.Directories

set_option autoImplicit false

namespace UtilityCss

open UtilityCss.Path

inductive Thing where
  | directory
  | file (content : ByteArray)

namespace Node

def thing : Node → Thing
  | .file content => .file content
  | .directory _ => .directory

variable {node inner : Node} {place names : List String} {name : String}
  {entries : List (String × Node)} {change : Option Node → Option Node}

theorem thing_eq_directory : node.thing = .directory ↔ ∃ entries, node = .directory entries := by
  cases node <;> simp [thing]

theorem thing_eq_file {content : ByteArray} : node.thing = .file content ↔ node = .file content := by
  cases node <;> simp [thing]

theorem exists_alter (found : node.at? place = some (.directory entries))
    (made : change (Table.get? name entries) = some inner) :
    ∃ altered, alter change (place ++ [name]) (some node) = some altered ∧
      altered.at? (place ++ [name]) = some inner ∧
      ∀ names, ¬ place ++ [name] <+: names →
        (altered.at? names).map thing = (node.at? names).map thing := by
  induction place generalizing node with
  | nil =>
    obtain rfl := Option.some.inj found
    refine ⟨.directory (Table.insert name inner entries), ?_, ?_, fun names aside => ?_⟩
    · simp [alter, made]
    · simp [at?]
    · cases names with
      | nil => rfl
      | cons first rest =>
        have different : first ≠ name := by
          rintro rfl
          exact aside ⟨rest, rfl⟩
        rw [at?, at?, Table.get?_insert_of_ne inner entries different]
  | cons first place ih =>
    obtain ⟨others, child, rfl, isChild, below⟩ := at?_cons_eq_some found
    obtain ⟨altered, isAltered, isInner, kept⟩ := ih below
    refine ⟨.directory (Table.insert first altered others), ?_, ?_, fun names aside => ?_⟩
    · simp [alter, isChild, isAltered]
    · simpa [at?] using isInner
    · cases names with
      | nil => rfl
      | cons next rest =>
        by_cases same : next = first
        · subst same
          have behind : ¬ place ++ [name] <+: rest := fun before =>
            aside ((List.prefix_cons_inj next).2 before)
          simpa [at?, isChild] using kept rest behind
        · rw [at?, at?, Table.get?_insert_of_ne altered others same]

theorem at?_of_file {content : ByteArray} (nonempty : names ≠ []) :
    (Node.file content).at? names = none := by
  obtain ⟨name, rest, rfl⟩ := List.exists_cons_of_ne_nil nonempty
  rfl

theorem at?_of_empty (nonempty : names ≠ []) : (Node.directory []).at? names = none := by
  obtain ⟨name, rest, rfl⟩ := List.exists_cons_of_ne_nil nonempty
  rfl

end Node

namespace FileTree

def thingAt? (tree : FileTree) (names : List String) : Option Thing :=
  (tree.nodeAt? names).map Node.thing

structure PutAt (place : List String) (thing : Thing) (before after : FileTree) : Prop where
  put : after.thingAt? place = some thing
  others : ∀ names, names ≠ place → after.thingAt? names = before.thingAt? names
  home : after.workingDirectory = before.workingDirectory

/-- Two trees that differ in directories on the way to a place, which the first one lacks. -/
structure OpenedTo (place : List String) (before after : FileTree) : Prop where
  others : ∀ names, after.thingAt? names = before.thingAt? names ∨
    names <+: place ∧ before.thingAt? names = none ∧ after.thingAt? names = some .directory
  home : after.workingDirectory = before.workingDirectory

structure Written (place : List String) (content : ByteArray) (before after : FileTree) : Prop where
  file : after.thingAt? place = some (.file content)
  free : before.thingAt? place ≠ some .directory
  above : ∀ names, names <+: place → names ≠ place → after.thingAt? names = some .directory ∧
    (before.thingAt? names = none ∨ before.thingAt? names = some .directory)
  aside : ∀ names, ¬ names <+: place → after.thingAt? names = before.thingAt? names
  home : after.workingDirectory = before.workingDirectory

variable {tree before middle after : FileTree} {place onward names done : List String} {name : String}
  {entries : List (String × Node)} {content : ByteArray} {node : Node}
  {change : Option Node → Option Node}

theorem thingAt?_eq_directory : tree.thingAt? names = some .directory ↔
    ∃ entries, tree.nodeAt? names = some (.directory entries) := by
  simp [thingAt?, Node.thing_eq_directory]

theorem thingAt?_eq_file :
    tree.thingAt? names = some (.file content) ↔ tree.nodeAt? names = some (.file content) := by
  simp [thingAt?, Node.thing_eq_file]

theorem thingAt?_eq_none : tree.thingAt? names = none ↔ tree.nodeAt? names = none := by
  rw [thingAt?, Option.map_eq_none_iff]

theorem isSome_thingAt? (tree : FileTree) (names : List String) :
    (tree.thingAt? names).isSome = (tree.nodeAt? names).isSome := Option.isSome_map

theorem PutAt.isThere {thing : Thing} (put : PutAt place thing before after) :
    (after.nodeAt? place).isSome := by
  rw [← isSome_thingAt?, put.put, Option.isSome_some]

theorem thingAt?_above (found : (tree.nodeAt? (place ++ [name])).isSome) (before : names <+: place) :
    tree.thingAt? names = some .directory := by
  obtain ⟨rest, rfl⟩ := before
  obtain ⟨node, isNode⟩ := Option.isSome_iff_exists.1 found
  rw [List.append_assoc, nodeAt?_append] at isNode
  obtain ⟨above, isAbove, below⟩ := Option.bind_eq_some_iff.1 isNode
  obtain ⟨next, more, split⟩ := List.exists_cons_of_ne_nil (List.append_ne_nil_of_right_ne_nil rest
    (List.cons_ne_nil name []))
  rw [split] at below
  obtain ⟨entries, -, rfl, -, -⟩ := Node.at?_cons_eq_some below
  exact thingAt?_eq_directory.2 ⟨entries, isAbove⟩

theorem thingAt?_of_missing (found : tree.nodeAt? place = some (.directory entries))
    (missing : Table.get? name entries = none) : tree.thingAt? (place ++ [name]) = none := by
  rw [thingAt?_eq_none, nodeAt?_append, found, Option.bind_some, Node.at?, missing, Option.bind_none]

theorem nodeAt?_below (free : tree.thingAt? place ≠ some .directory) (nonempty : names ≠ []) :
    tree.nodeAt? (place ++ names) = none := by
  rw [nodeAt?_append]
  rcases found : tree.nodeAt? place with _ | (content | entries)
  · rfl
  · exact Node.at?_of_file nonempty
  · exact absurd (thingAt?_eq_directory.2 ⟨entries, found⟩) free

theorem putAt_alter (found : tree.nodeAt? place = some (.directory entries))
    (free : tree.thingAt? (place ++ [name]) ≠ some .directory)
    (made : change (Table.get? name entries) = some node)
    (bare : ∀ names, names ≠ [] → node.at? names = none) :
    PutAt (place ++ [name]) node.thing tree (tree.alter (place ++ [name]) change) := by
  obtain ⟨altered, isAltered, isNode, kept⟩ := Node.exists_alter found made
  -- The root stays a directory.
  obtain ⟨others, rfl⟩ := Node.thing_eq_directory.1 (Option.some.inj (kept [] (by simp)))
  have result : tree.alter (place ++ [name]) change = { tree with entries := others } := by
    rw [FileTree.alter, isAltered]
  rw [result]
  refine ⟨congrArg (Option.map Node.thing) isNode, fun names other => ?_, rfl⟩
  by_cases behind : place ++ [name] <+: names
  · obtain ⟨rest, rfl⟩ := behind
    have nonempty : rest ≠ [] := by
      rintro rfl
      exact other (List.append_nil _)
    have empty : { tree with entries := others }.nodeAt? (place ++ [name] ++ rest) = none := by
      rw [nodeAt?_append]
      exact (congrArg (Option.bind · (Node.at? rest)) isNode).trans (bare rest nonempty)
    rw [thingAt?_eq_none.2 empty, thingAt?_eq_none.2 (nodeAt?_below free nonempty)]
  · exact kept names behind

theorem putAt_setFile (found : tree.nodeAt? place = some (.directory entries))
    (free : tree.thingAt? (place ++ [name]) ≠ some .directory) (content : ByteArray) :
    PutAt (place ++ [name]) (.file content) tree (tree.setFile (place ++ [name]) content) :=
  putAt_alter found free rfl fun _ => Node.at?_of_file

theorem putAt_setDirectory (found : tree.nodeAt? place = some (.directory entries))
    (missing : Table.get? name entries = none) :
    PutAt (place ++ [name]) .directory tree (tree.setDirectory (place ++ [name])) := by
  have free : tree.thingAt? (place ++ [name]) ≠ some .directory := by
    simp [thingAt?_of_missing found missing]
  have bare : ∀ names, names ≠ [] → (Node.directory []).at? names = none :=
    fun _ => Node.at?_of_empty
  refine putAt_alter found free ?_ bare
  rw [missing]

namespace OpenedTo

theorem refl (place : List String) (tree : FileTree) : OpenedTo place tree tree :=
  ⟨fun _ => .inl rfl, rfl⟩

theorem mono (opened : OpenedTo place before after) (above : place <+: onward) :
    OpenedTo onward before after where
  others names := (opened.others names).imp_right fun ⟨before, more⟩ => ⟨before.trans above, more⟩
  home := opened.home

theorem trans (opened : OpenedTo place before middle) (further : OpenedTo place middle after) :
    OpenedTo place before after where
  others names := by
    rcases opened.others names with same | ⟨above, absent, made⟩
    · exact same ▸ further.others names
    · rcases further.others names with same | ⟨-, absentToo, -⟩
      · exact .inr ⟨above, absent, same.trans made⟩
      · cases made.symm.trans absentToo
  home := further.home.trans opened.home

end OpenedTo

theorem PutAt.openedTo (put : PutAt place .directory before after)
    (absent : before.thingAt? place = none) : OpenedTo place before after where
  others names := by
    by_cases same : names = place
    · subst same
      exact .inr ⟨List.prefix_rfl, absent, put.put⟩
    · exact .inl (put.others names same)
  home := put.home

theorem exists_of_spells_concat (spells : Spells (place ++ [name]) done) :
    ∃ texts, done = texts ++ [name] ∧ Spells place texts := by
  rcases spells with rfl | rfl
  · exact ⟨place, rfl, .inl rfl⟩
  · exact ⟨".." :: place, rfl, .inr rfl⟩

theorem exists_of_named (areNames : ∀ text ∈ place, IsName text) (spells : Spells place done)
    (named : (pathOf done).fileName? = some name) :
    ∃ directory texts, place = directory ++ [name] ∧ done = texts ++ [name] ∧
      Spells directory texts ∧ (∀ text ∈ directory, IsName text) ∧ IsName name := by
  rcases List.eq_nil_or_concat place with rfl | ⟨directory, last, rfl⟩
  · have nameless : (pathOf done).fileName? = none := by
      rcases spells with rfl | rfl <;> decide
    cases nameless.symm.trans named
  · rw [List.concat_eq_append] at *
    obtain ⟨above, own⟩ := List.forall_mem_append.1 areNames
    have isName := own last (List.mem_singleton_self last)
    obtain ⟨texts, rfl, spelled⟩ := exists_of_spells_concat spells
    rw [fileName?_pathOf (spelled.isStep above) isName] at named
    obtain rfl := Option.some.inj named
    exact ⟨directory, texts, rfl, rfl, spelled, above, isName⟩

theorem foldlM_texts_of_missing {texts : List String} (steps : ∀ text ∈ texts, IsStep text)
    (missing : tree.locate (pathOf texts) = .error .notFound) :
    '\x00' ∉ (pathOf texts).spelling.toList ∧
      (pathOf texts).spelling.utf8ByteSize ≤ longestPath ∧
      (texts.map String.toList).foldlM tree.step [] = .error .notFound := by
  have root : tree.step [] [] = .ok [] := rfl
  have nonempty := spelling_pathOf_ne_empty texts
  rw [locate, if_neg nonempty, if_pos (isAbsolute_pathOf texts), split_pathOf steps,
    List.foldlM_cons, root] at missing
  split_ifs at missing with zero long none
  · cases missing
  · cases missing
  · cases missing
  · exact ⟨by simpa using zero, Nat.not_lt.1 long, missing⟩

theorem foldlM_step_concat {texts : List String}
    (led : (texts.map String.toList).foldlM tree.step [] = .ok place) (name : String) :
    ((texts ++ [name]).map String.toList).foldlM tree.step [] = tree.step place name.toList := by
  rw [List.map_append, List.foldlM_append, led]
  exact bind_pure (tree.step place name.toList)

theorem missing_of_step (missing : tree.step place name.toList = .error .notFound) :
    ∃ entries, tree.nodeAt? place = some (.directory entries) ∧ Table.get? name entries = none ∧
      name.utf8ByteSize ≤ longestName := by
  unfold step at missing
  split at missing
  · next entries found =>
    simp only [String.ofList_toList] at missing
    split_ifs at missing with silent up long listed
    · cases missing
    · exact ⟨entries, found, by simpa [Table.contains] using listed, Nat.not_lt.1 long⟩
  · cases missing

theorem exists_directory_of_newPlace (areNames : ∀ name ∈ place, IsName name)
    (spells : Spells place done) (missing : tree.locate (pathOf done) = .error .notFound)
    (new : tree.newPlace (pathOf done) = .ok onward) :
    onward = place ∧ ∃ directory texts name entries, place = directory ++ [name] ∧
      done = texts ++ [name] ∧ IsName name ∧ name.utf8ByteSize ≤ longestName ∧
      (texts.map String.toList).foldlM tree.step [] = .ok directory ∧
      tree.nodeAt? directory = some (.directory entries) ∧ Table.get? name entries = none := by
  unfold newPlace at new
  split at new
  · cases new
  · cases new
  · next name names named located =>
    obtain rfl := Except.ok.inj new
    obtain ⟨directory, texts, rfl, rfl, spelled, above, isName⟩ :=
      exists_of_named areNames spells named
    have steps := spelled.isStep above
    have inDirectory : directoryOf (pathOf (texts ++ [name])) = pathOf texts := by
      have parent := parent?_pathOf steps isName.toIsStep
      simp [directoryOf, Path.directory, parent, spelling_pathOf_ne_empty]
    rw [inDirectory] at located
    obtain ⟨-, same⟩ := location_of_locate (isAbsolute_pathOf texts) located
    obtain rfl := same.trans (location_pathOf above spelled)
    have led := foldlM_texts_of_locate steps located
    obtain ⟨-, -, lost⟩ := foldlM_texts_of_missing (spells.isStep areNames) missing
    rw [foldlM_step_concat led] at lost
    obtain ⟨entries, found, absent, fits⟩ := missing_of_step lost
    exact ⟨rfl, _, texts, name, entries, rfl, rfl, isName, fits, led, found, absent⟩

theorem openedTo_of_makeDirectory (areNames : ∀ name ∈ place, IsName name)
    (spells : Spells place done) (made : before.makeDirectory (pathOf done) = .ok after) :
    OpenedTo place before after := by
  unfold makeDirectory at made
  split at made
  · cases made
  · next missing =>
    split_ifs at made
    obtain ⟨onward, new, rfl⟩ := map_eq_ok.1 made
    obtain ⟨rfl, directory, texts, name, entries, rfl, -, -, -, -, found, absent⟩ :=
      exists_directory_of_newPlace areNames spells missing new
    exact (putAt_setDirectory found absent).openedTo (thingAt?_of_missing found absent)
  · cases made

theorem openedTo_ensureDirectory (areNames : ∀ name ∈ place, IsName name)
    (spells : Spells place done) (tree : FileTree) :
    OpenedTo place tree (tree.ensureDirectory (pathOf done)).1 := by
  unfold ensureDirectory
  split
  · next made => exact openedTo_of_makeDirectory areNames spells made
  · exact .refl place tree

def AreAbove (place : List String) (paths : List Path) : Prop :=
  ∀ path ∈ paths, ∃ names texts, names <+: place ∧ Spells names texts ∧ path = pathOf texts

theorem openedTo_ensureDirectories {paths : List Path} (areNames : ∀ name ∈ place, IsName name)
    (above : AreAbove place paths) (tree : FileTree) :
    OpenedTo place tree (tree.ensureDirectories paths).1 := by
  induction paths generalizing tree with
  | nil => exact .refl place tree
  | cons path rest ih =>
    obtain ⟨⟨names, texts, before, spells, rfl⟩, others⟩ := List.forall_mem_cons.1 above
    have step (tree : FileTree) : OpenedTo place tree (tree.ensureDirectory (pathOf texts)).1 :=
      (openedTo_ensureDirectory (fun name inside => areNames name (before.subset inside)) spells
        tree).mono before
    unfold ensureDirectories
    rw [if_neg (spelling_pathOf_ne_empty texts)]
    split
    · next after tried =>
      have first : OpenedTo place tree after := by simpa [tried] using step tree
      have second := ih others after
      split
      · next middle made =>
        rw [made] at second
        exact (first.trans second).trans (step middle)
      · exact first.trans second
    · exact step tree

theorem exists_prefix_of_mem_upwards {count : Nat} {texts : List String} {path : Path}
    (steps : ∀ text ∈ texts, IsStep text) (member : path ∈ upwards count (pathOf texts)) :
    ∃ before, before <+: texts ∧ path = pathOf before := by
  induction count generalizing texts with
  | zero => exact ⟨texts, List.prefix_rfl, List.mem_singleton.1 member⟩
  | succ count ih =>
    rw [upwards, List.mem_cons] at member
    rcases member with rfl | later
    · exact ⟨texts, List.prefix_rfl, rfl⟩
    · rcases List.eq_nil_or_concat texts with rfl | ⟨front, last, rfl⟩
      · have top : (pathOf []).parent? = none := by decide
        simp [top] at later
      · rw [List.concat_eq_append] at *
        obtain ⟨above, own⟩ := List.forall_mem_append.1 steps
        rw [parent?_pathOf above (own last (List.mem_singleton_self last)), Option.elim_some] at later
        obtain ⟨before, inFront, same⟩ := ih above later
        exact ⟨before, inFront.trans (List.prefix_append front [last]), same⟩

theorem areAbove_ancestors (areNames : ∀ name ∈ place, IsName name) (spells : Spells place done) :
    AreAbove place (pathOf done).ancestors := by
  intro path member
  obtain ⟨texts, before, rfl⟩ := exists_prefix_of_mem_upwards (spells.isStep areNames) member
  rcases spells with rfl | rfl
  · exact ⟨texts, texts, before, .inl rfl, rfl⟩
  · rcases List.prefix_cons_iff.1 before with rfl | ⟨names, rfl, above⟩
    · exact ⟨[], [], List.nil_prefix, .inl rfl, rfl⟩
    · exact ⟨names, ".." :: names, above, .inr rfl, rfl⟩

theorem openedTo_createDirectories (areNames : ∀ name ∈ place, IsName name)
    (spells : Spells place done) (tree : FileTree) :
    OpenedTo place tree (tree.createDirectories (pathOf done)).1 :=
  openedTo_ensureDirectories areNames (areAbove_ancestors areNames spells) tree

theorem PutAt.sameDirectories (put : PutAt place (.file content) before after)
    (free : before.thingAt? place ≠ some .directory) : SameDirectories before after := by
  have directory (tree : FileTree) (names : List String) :
      (tree.nodeAt? names).any Node.isDirectory = true ↔ tree.thingAt? names = some .directory := by
    rw [thingAt?]
    rcases tree.nodeAt? names with _ | (content | entries) <;> simp [Node.isDirectory, Node.thing]
  intro names
  rw [Bool.eq_iff_iff, directory, directory]
  by_cases same : names = place
  · subst same
    simp [put.put, free]
  · rw [put.others names same]

theorem putAt_of_located (content : ByteArray) (areNames : ∀ name ∈ place, IsName name)
    (spells : Spells place done) (located : before.locate (pathOf done) = .ok names)
    (free : before.thingAt? names ≠ some .directory) :
    names = place ∧ PutAt place (.file content) before (before.setFile place content) ∧
      (before.setFile place content).locate (pathOf done) = .ok place ∧
      ∃ directory name, place = directory ++ [name] := by
  have absolute := isAbsolute_pathOf done
  obtain ⟨isFound, same⟩ := location_of_locate absolute located
  obtain rfl := same.trans (location_pathOf areNames spells)
  rcases List.eq_nil_or_concat names with rfl | ⟨directory, name, rfl⟩
  · exact absurd rfl free
  · rw [List.concat_eq_append] at located free isFound ⊢
    obtain ⟨entries, found⟩ :=
      thingAt?_eq_directory.1 (thingAt?_above isFound.isThere List.prefix_rfl)
    have put := putAt_setFile found free content
    exact ⟨rfl, put, locate_transfer (put.sameDirectories free) absolute located put.isThere,
      directory, name, rfl⟩

theorem putAt_of_missing (content : ByteArray) (areNames : ∀ text ∈ place, IsName text)
    (spells : Spells place done) (missing : before.locate (pathOf done) = .error .notFound)
    (new : before.newPlace (pathOf done) = .ok onward) :
    onward = place ∧ before.thingAt? place = none ∧
      PutAt place (.file content) before (before.setFile place content) ∧
      (before.setFile place content).locate (pathOf done) = .ok place ∧
      ∃ directory name, place = directory ++ [name] := by
  obtain ⟨same, names, texts, name, entries, rfl, rfl, isName, fits, led, found, absent⟩ :=
    exists_directory_of_newPlace areNames spells missing new
  obtain ⟨noZero, short, -⟩ := foldlM_texts_of_missing (spells.isStep areNames) missing
  have nothing := thingAt?_of_missing found absent
  have free : before.thingAt? (names ++ [name]) ≠ some .directory := by simp [nothing]
  have put := putAt_setFile found free content
  have directories := put.sameDirectories free
  obtain ⟨others, again⟩ := directories.exists_entries found
  have ledToo := foldlM_step_transfer directories led (by rw [again, Option.isSome_some])
  refine ⟨same, nothing, put, ?_, names, name, rfl⟩
  refine locate_of_foldlM (spells.isStep areNames) noZero short ?_
  rw [foldlM_step_concat ledToo]
  exact step_of_nodeAt? isName fits put.isThere

theorem putAt_of_write (areNames : ∀ name ∈ place, IsName name) (spells : Spells place done)
    (written : before.write (pathOf done) content = .ok after) :
    before.thingAt? place ≠ some .directory ∧ PutAt place (.file content) before after ∧
      after.locate (pathOf done) = .ok place ∧ ∃ directory name, place = directory ++ [name] := by
  unfold write at written
  split at written
  · next names located =>
    split at written
    · cases written
    · next file =>
      have free : before.thingAt? names ≠ some .directory := fun isDirectory =>
        (thingAt?_eq_directory.1 isDirectory).elim file
      obtain ⟨rfl, put⟩ := putAt_of_located content areNames spells located free
      exact Except.ok.inj written ▸ ⟨free, put⟩
  · next missing =>
    obtain ⟨onward, new, rfl⟩ := map_eq_ok.1 written
    obtain ⟨rfl, nothing, put⟩ := putAt_of_missing content areNames spells missing new
    exact ⟨by simp [nothing], put⟩
  · cases written

theorem OpenedTo.written (opened : OpenedTo place before middle)
    (free : middle.thingAt? (place ++ [name]) ≠ some .directory)
    (put : PutAt (place ++ [name]) (.file content) middle after) :
    Written (place ++ [name]) content before after where
  file := put.put
  free := by
    rcases opened.others (place ++ [name]) with same | ⟨above, -, -⟩
    · rwa [← same]
    · exact absurd above.length_le (by simp)
  above names above other := by
    have between : names <+: place := (List.prefix_concat_iff.1 above).resolve_left other
    have isDirectory := thingAt?_above put.isThere between
    refine ⟨isDirectory, ?_⟩
    rcases opened.others names with same | ⟨-, absent, -⟩
    · exact .inr (same.symm.trans ((put.others names other).symm.trans isDirectory))
    · exact .inl absent
  aside names aside := by
    have other : names ≠ place ++ [name] := by
      rintro rfl
      exact aside List.prefix_rfl
    rcases opened.others names with same | ⟨above, -, -⟩
    · exact (put.others names other).trans same
    · exact absurd (above.trans (List.prefix_append place [name])) aside
  home := put.home.trans opened.home

theorem openedTo_of_parent (areNames : ∀ name ∈ place, IsName name) (spells : Spells place done)
    {result : Except FileFault Unit} (created : (pathOf done).parent?.elim (before, .ok ())
      before.createDirectories = (middle, result)) : OpenedTo place.dropLast before middle := by
  rcases List.eq_nil_or_concat place with rfl | ⟨directory, name, rfl⟩
  · have root : AreAbove [] (pathOf []).ancestors := areAbove_ancestors (by simp) (.inl rfl)
    rcases spells with rfl | rfl
    · obtain rfl : before = middle := congrArg Prod.fst created
      exact .refl [] before
    · have parent : (pathOf [".."]).parent? = some (pathOf []) := by decide
      rw [parent, Option.elim_some] at created
      have opened := openedTo_ensureDirectories (by simp) root before
      rwa [← createDirectories, created] at opened
  · rw [List.concat_eq_append] at *
    obtain ⟨above, own⟩ := List.forall_mem_append.1 areNames
    obtain ⟨texts, rfl, spelled⟩ := exists_of_spells_concat spells
    have step := (own name (List.mem_singleton_self name)).toIsStep
    rw [parent?_pathOf (spelled.isStep above) step, Option.elim_some] at created
    have opened := openedTo_createDirectories above spelled before
    rw [created] at opened
    rwa [List.dropLast_concat]

theorem written_of_writeBelow {text : String} (areNames : ∀ name ∈ place, IsName name)
    (spells : Spells place done)
    (wrote : before.writeBelow (pathOf done) text = (after, .ok ())) :
    Written place text.toUTF8 before after ∧ after.readBytes (pathOf done) = .ok text.toUTF8 := by
  obtain ⟨middle, opened, written⟩ : ∃ middle, OpenedTo place.dropLast before middle ∧
      middle.write (pathOf done) text.toUTF8 = .ok after := by
    unfold writeBelow at wrote
    split at wrote
    · cases wrote
    · next middle created =>
      split at wrote
      · cases wrote
      · next written =>
        obtain rfl := (Prod.mk.inj wrote).1
        exact ⟨middle, openedTo_of_parent areNames spells created, written⟩
  obtain ⟨free, put, led, directory, name, rfl⟩ := putAt_of_write areNames spells written
  rw [List.dropLast_concat] at opened
  refine ⟨opened.written free put, ?_⟩
  rw [readBytes, FileTree.node, led, Except.bind, thingAt?_eq_file.1 put.put]

theorem openedTo_of_failed_writeBelow {text : String} {fault : FileFault}
    (areNames : ∀ name ∈ place, IsName name) (spells : Spells place done)
    (failed : before.writeBelow (pathOf done) text = (after, .error fault)) :
    OpenedTo place.dropLast before after := by
  unfold writeBelow at failed
  split at failed
  · next middle refused created =>
    obtain rfl := (Prod.mk.inj failed).1
    exact openedTo_of_parent areNames spells created
  · next middle created =>
    split at failed
    · obtain rfl := (Prod.mk.inj failed).1
      exact openedTo_of_parent areNames spells created
    · cases failed

end FileTree

end UtilityCss
