import UtilityCss.Proofs.Path.Components
import UtilityCss.Proofs.Result
import UtilityCss.Proofs.Value.Table

set_option autoImplicit false

namespace UtilityCss

open UtilityCss.Path

namespace Node

def isDirectory : Node → Bool
  | .directory _ => true
  | .file _ => false

structure Fits (used : Nat) (name : String) : Prop where
  isName : IsName name
  noZero : '\x00' ∉ name.toList
  short : name.utf8ByteSize ≤ FileTree.longestName
  within : used + 1 + name.utf8ByteSize ≤ FileTree.longestPath

instance (used : Nat) (name : String) : Decidable (Fits used name) :=
  decidable_of_iff (IsName name ∧ '\x00' ∉ name.toList ∧
      name.utf8ByteSize ≤ FileTree.longestName ∧
        used + 1 + name.utf8ByteSize ≤ FileTree.longestPath)
    ⟨fun ⟨isName, noZero, short, within⟩ => ⟨isName, noZero, short, within⟩,
      fun fits => ⟨fits.isName, fits.noZero, fits.short, fits.within⟩⟩

mutual

def isProper (used : Nat) : Node → Bool
  | .file _ => true
  | .directory entries => (entries.map Prod.fst).Nodup && areProper used entries

def areProper (used : Nat) : List (String × Node) → Bool
  | [] => true
  | (name, node) :: rest => Fits used name && isProper (used + 1 + name.utf8ByteSize) node &&
      areProper used rest

end

variable {node inner : Node} {name : String} {names more : List String}
  {entries : List (String × Node)} {content other : ByteArray} {used : Nat}

theorem distinct_of_isProper (proper : (Node.directory entries).isProper used = true) :
    (entries.map Prod.fst).Nodup := by
  rw [isProper, Bool.and_eq_true, decide_eq_true_eq] at proper
  exact proper.1

theorem entry_of_isProper (proper : (Node.directory entries).isProper used = true)
    (member : (name, node) ∈ entries) :
    Fits used name ∧ node.isProper (used + 1 + name.utf8ByteSize) = true := by
  rw [isProper, Bool.and_eq_true] at proper
  have all := proper.2
  clear proper
  induction entries with
  | nil => cases member
  | cons entry rest ih =>
    obtain ⟨first, inside⟩ := entry
    simp only [areProper, Bool.and_eq_true, decide_eq_true_eq] at all
    rcases List.mem_cons.1 member with same | later
    · obtain ⟨rfl, rfl⟩ := Prod.mk.inj same
      exact all.1
    · exact ih later all.2

def bytesOf : List String → Nat
  | [] => 0
  | name :: rest => 1 + name.utf8ByteSize + bytesOf rest

theorem bytesOf_append (names more : List String) :
    bytesOf (names ++ more) = bytesOf names + bytesOf more := by
  induction names with
  | nil => simp [bytesOf]
  | cons name rest ih => simp [bytesOf, ih, Nat.add_assoc]

theorem bytesOf_replicate (count : Nat) (name : String) :
    bytesOf (List.replicate count name) = count * (1 + name.utf8ByteSize) := by
  induction count with
  | zero => simp [bytesOf]
  | succ count ih =>
    rw [List.replicate_succ, bytesOf, ih, Nat.succ_mul, Nat.add_comm]

theorem at?_append (names more : List String) (node : Node) :
    node.at? (names ++ more) = (node.at? names).bind (at? more) := by
  induction names generalizing node with
  | nil => rfl
  | cons name rest ih =>
    cases node with
    | file content => rfl
    | directory entries =>
      simp only [List.cons_append, at?]
      cases Table.get? name entries with
      | none => rfl
      | some inner => exact ih inner

theorem at?_cons_eq_some (found : node.at? (name :: names) = some inner) :
    ∃ entries child, node = .directory entries ∧ Table.get? name entries = some child ∧
      child.at? names = some inner := by
  cases node with
  | file content => cases found
  | directory entries =>
    obtain ⟨child, isChild, rest⟩ := Option.bind_eq_some_iff.1 found
    exact ⟨entries, child, rfl, isChild, rest⟩

theorem mem_entryFiles {file : List String × ByteArray} (member : (name, node) ∈ entries)
    (inside : file ∈ node.files) : (name :: file.1, file.2) ∈ entryFiles entries := by
  induction entries with
  | nil => cases member
  | cons entry rest ih =>
    obtain ⟨first, other⟩ := entry
    rw [entryFiles, List.mem_append, List.mem_map]
    rcases List.mem_cons.1 member with same | later
    · obtain ⟨rfl, rfl⟩ := Prod.mk.inj same
      exact .inl ⟨file, inside, rfl⟩
    · exact .inr (ih later)

theorem mem_files {content : ByteArray} (isFile : node.at? names = some (.file content)) :
    (names, content) ∈ node.files := by
  induction names generalizing node with
  | nil =>
    obtain rfl := Option.some.inj isFile
    simp [files]
  | cons name rest ih =>
    obtain ⟨entries, child, rfl, isChild, later⟩ := at?_cons_eq_some isFile
    rw [files]
    exact mem_entryFiles (Table.mem_of_get? isChild) (ih later)

theorem at?_of_isProper (proper : node.isProper used = true) (found : node.at? names = some inner) :
    inner.isProper (used + bytesOf names) = true ∧
      (∀ name ∈ names, ∃ before, Fits before name) ∧
        (names ≠ [] → used + bytesOf names ≤ FileTree.longestPath) := by
  induction names generalizing node used with
  | nil =>
    obtain rfl := Option.some.inj found
    exact ⟨proper, by simp, by simp⟩
  | cons name rest ih =>
    obtain ⟨entries, child, rfl, isChild, later⟩ := at?_cons_eq_some found
    obtain ⟨own, below⟩ := entry_of_isProper proper (Table.mem_of_get? isChild)
    obtain ⟨isInner, others, within⟩ := ih below later
    have total : used + bytesOf (name :: rest) = used + 1 + name.utf8ByteSize + bytesOf rest := by
      simp [bytesOf]
      omega
    rw [total]
    refine ⟨isInner, List.forall_mem_cons.2 ⟨⟨used, own⟩, others⟩, fun _ => ?_⟩
    cases rest with
    | nil => simpa [bytesOf] using own.within
    | cons next more => exact within (List.cons_ne_nil next more)

def behind (names : List String) (node : Node) : Node :=
  names.foldr (fun name inner => .directory [(name, inner)]) node

theorem at?_behind (names more : List String) (node : Node) :
    (behind names node).at? (names ++ more) = node.at? more := by
  induction names with
  | nil => rfl
  | cons name rest ih =>
    have own : Table.get? name [(name, behind rest node)] = some (behind rest node) := by
      simp [Table.get?]
    exact (congrArg (Option.bind · (at? (rest ++ more))) own).trans ih

theorem eq_of_at?_behind
    (found : (behind names (.file content)).at? more = some (.file other)) : more = names := by
  induction names generalizing more with
  | nil =>
    cases more with
    | nil => rfl
    | cons name rest => cases found
  | cons name names ih =>
    cases more with
    | nil => cases found
    | cons next rest =>
      obtain ⟨entries, child, same, isChild, below⟩ := at?_cons_eq_some found
      obtain rfl : [(name, behind names (.file content))] = entries := Node.directory.inj same
      have listed := Table.mem_of_get? isChild
      obtain ⟨rfl, rfl⟩ := Prod.mk.inj (List.mem_singleton.1 listed)
      rw [ih below]

theorem isProper_behind (proper : node.isProper (used + bytesOf names) = true)
    (areNames : ∀ name ∈ names, IsName name ∧ '\x00' ∉ name.toList ∧
      name.utf8ByteSize ≤ FileTree.longestName)
    (within : used + bytesOf names ≤ FileTree.longestPath) :
    (behind names node).isProper used = true := by
  induction names generalizing used with
  | nil => exact proper
  | cons name rest ih =>
    obtain ⟨⟨isName, noZero, short⟩, others⟩ := List.forall_mem_cons.1 areNames
    have total : used + bytesOf (name :: rest) = used + 1 + name.utf8ByteSize + bytesOf rest := by
      rw [bytesOf]
      omega
    rw [total] at proper within
    have fits : Fits used name := ⟨isName, noZero, short, by omega⟩
    change (Node.directory [(name, behind rest node)]).isProper used = true
    simp [isProper, areProper, fits, ih proper others within]

end Node

namespace FileTree

def Proper (tree : FileTree) : Prop := tree.root.isProper 0 = true

instance (tree : FileTree) : Decidable tree.Proper := inferInstanceAs (Decidable (_ = _))

variable {tree : FileTree} {names more : List String} {node : Node}

theorem nodeAt?_append (tree : FileTree) (names more : List String) :
    tree.nodeAt? (names ++ more) = (tree.nodeAt? names).bind (Node.at? more) :=
  Node.at?_append names more tree.root

theorem Proper.fits (proper : tree.Proper) (found : (tree.nodeAt? names).isSome) :
    ∀ name ∈ names, ∃ before, Node.Fits before name := by
  obtain ⟨node, isNode⟩ := Option.isSome_iff_exists.1 found
  exact (Node.at?_of_isProper proper isNode).2.1

theorem Proper.isName (proper : tree.Proper) (found : (tree.nodeAt? names).isSome) :
    ∀ name ∈ names, IsName name := fun name member =>
  (proper.fits found name member).elim fun _ fits => fits.isName

theorem utf8ByteSize_pathOf (names : List String) (nonempty : names ≠ []) :
    (pathOf names).spelling.utf8ByteSize = Node.bytesOf names := by
  have slash : "/".utf8ByteSize = 1 := by decide
  have total : ∀ first rest, (String.intercalate "/" (first :: rest)).utf8ByteSize =
      first.utf8ByteSize + Node.bytesOf rest := by
    intro first rest
    induction rest generalizing first with
    | nil => simp [Node.bytesOf]
    | cons next more ih =>
      rw [String.intercalate_cons_cons, String.utf8ByteSize_append, String.utf8ByteSize_append, ih]
      simp [Node.bytesOf, slash]
      omega
  cases names with
  | nil => exact absurd rfl nonempty
  | cons first rest =>
    simp [pathOf, String.utf8ByteSize_append, total, Node.bytesOf, slash]
    omega

theorem Proper.short (proper : tree.Proper) (found : (tree.nodeAt? names).isSome) :
    (pathOf names).spelling.utf8ByteSize ≤ longestPath := by
  obtain ⟨node, isNode⟩ := Option.isSome_iff_exists.1 found
  by_cases nonempty : names = []
  · subst nonempty
    decide
  · have within := (Node.at?_of_isProper proper isNode).2.2 nonempty
    rw [utf8ByteSize_pathOf names nonempty]
    omega

theorem step_of_nodeAt? {place : List String} {name : String} (isName : IsName name)
    (short : name.utf8ByteSize ≤ longestName)
    (found : (tree.nodeAt? (place ++ [name])).isSome) :
    tree.step place name.toList = .ok (place ++ [name]) := by
  obtain ⟨node, found⟩ := Option.isSome_iff_exists.1 found
  rw [nodeAt?_append] at found
  obtain ⟨directory, isDirectory, inside⟩ := Option.bind_eq_some_iff.1 found
  obtain ⟨entries, child, rfl, isChild, -⟩ := Node.at?_cons_eq_some inside
  have down : name.toList ≠ ['.', '.'] := fun up => isName.down (toList_eq_up.1 up)
  rw [step, isDirectory]
  simp only [if_neg isName.speaks, if_neg down, String.ofList_toList]
  rw [if_neg (Nat.not_lt.2 short), if_pos (by simp [Table.contains, isChild])]

theorem foldlM_step {place : List String}
    (areNames : ∀ name ∈ names, IsName name ∧ name.utf8ByteSize ≤ longestName)
    (found : (tree.nodeAt? (place ++ names)).isSome) :
    (names.map String.toList).foldlM tree.step place = .ok (place ++ names) := by
  induction names generalizing place with
  | nil => simp [pure, Except.pure]
  | cons name rest ih =>
    obtain ⟨⟨isName, short⟩, others⟩ := List.forall_mem_cons.1 areNames
    rw [List.append_cons] at found ⊢
    have first : (tree.nodeAt? (place ++ [name])).isSome := by
      rw [nodeAt?_append] at found
      cases inside : tree.nodeAt? (place ++ [name]) with
      | none => simp [inside] at found
      | some node => rfl
    rw [List.map_cons, List.foldlM_cons, step_of_nodeAt? isName short first]
    exact ih others found

theorem locate_of_foldlM {place : List String} (steps : ∀ text ∈ names, IsStep text)
    (noZero : '\x00' ∉ (pathOf names).spelling.toList)
    (short : (pathOf names).spelling.utf8ByteSize ≤ longestPath)
    (led : (names.map String.toList).foldlM tree.step [] = .ok place) :
    tree.locate (pathOf names) = .ok place := by
  have clean : (pathOf names).spelling.toList.contains '\x00' = false := by
    rwa [← Bool.not_eq_true, List.contains_iff_mem]
  have nonempty := spelling_pathOf_ne_empty names
  have root : tree.step [] [] = .ok [] := rfl
  rw [locate, clean, if_neg Bool.false_ne_true, if_neg nonempty, if_neg (Nat.not_lt.2 short),
    if_pos (isAbsolute_pathOf names), split_pathOf steps, List.foldlM_cons, root]
  split_ifs with none
  · subst none
    exact led
  · exact led

theorem Proper.noZero (proper : tree.Proper) (found : (tree.nodeAt? names).isSome) :
    ∀ name ∈ names, '\x00' ∉ name.toList := fun name member =>
  (proper.fits found name member).elim fun _ fits => fits.noZero

theorem locate_pathOf (proper : tree.Proper) (found : (tree.nodeAt? names).isSome) :
    tree.locate (pathOf names) = .ok names := by
  have steps := steps_of_names (proper.isName found)
  refine locate_of_foldlM steps (fun member => ?_) (proper.short found)
    (foldlM_step (fun name member => ?_) found)
  · rcases mem_pathOf_iff.1 member with slash | ⟨name, isName, held⟩
    · exact absurd slash (by decide)
    · exact proper.noZero found name isName held
  · obtain ⟨before, isFit⟩ := proper.fits found name member
    exact ⟨isFit.isName, isFit.short⟩

theorem isName_of_step {place onward : List String} {piece : List Char} (free : '/' ∉ piece)
    (areNames : ∀ name ∈ place, IsName name) (led : tree.step place piece = .ok onward) :
    ∀ name ∈ onward, IsName name := by
  unfold step at led
  split at led
  · dsimp only at led
    split_ifs at led with silent up
    · exact Except.ok.inj led ▸ areNames
    · obtain rfl := Except.ok.inj led
      exact fun name member => areNames name (List.dropLast_subset place member)
    · obtain rfl := Except.ok.inj led
      rw [not_or] at silent
      have step : IsStep (String.ofList piece) := by
        refine ⟨by simpa using silent.1, fun same => silent.2 ?_, by simpa using free⟩
        simpa using congrArg String.toList same
      refine List.forall_mem_append.2 ⟨areNames, List.forall_mem_singleton.2 ⟨step, fun same => ?_⟩⟩
      exact up (by simpa using congrArg String.toList same)
  · cases led

theorem isName_of_steps {place onward : List String} {pieces : List (List Char)}
    (free : ∀ piece ∈ pieces, '/' ∉ piece) (areNames : ∀ name ∈ place, IsName name)
    (led : pieces.foldlM tree.step place = .ok onward) : ∀ name ∈ onward, IsName name := by
  induction pieces generalizing place with
  | nil => exact Except.ok.inj led ▸ areNames
  | cons piece rest ih =>
    obtain ⟨first, others⟩ := List.forall_mem_cons.1 free
    rw [List.foldlM_cons] at led
    obtain ⟨middle, next, led⟩ := bind_eq_ok.1 led
    exact ih others (isName_of_step first areNames next) led

theorem isName_of_locate {p : Path} {place : List String}
    (start : p.isAbsolute = true ∨ ∀ name ∈ tree.workingDirectory, IsName name)
    (located : tree.locate p = .ok place) : ∀ name ∈ place, IsName name := by
  unfold locate at located
  split_ifs at located with zero empty long absolute
  · exact isName_of_steps (Text.not_mem_of_mem_split '/' _) (by simp) located
  · exact isName_of_steps (Text.not_mem_of_mem_split '/' _) (start.resolve_left absolute) located

theorem eq_of_step {place onward : List String} {name : String} (isName : IsName name)
    (led : tree.step place name.toList = .ok onward) : onward = place ++ [name] := by
  have down : name.toList ≠ ['.', '.'] := fun up => isName.down (toList_eq_up.1 up)
  unfold step at led
  simp only [if_neg isName.speaks, if_neg down, String.ofList_toList] at led
  split at led
  · split_ifs at led
    exact (Except.ok.inj led).symm
  · cases led

theorem eq_of_foldlM_step {place onward : List String} (areNames : ∀ name ∈ names, IsName name)
    (led : (names.map String.toList).foldlM tree.step place = .ok onward) :
    onward = place ++ names := by
  induction names generalizing place with
  | nil =>
    obtain rfl := Except.ok.inj led
    simp
  | cons name rest ih =>
    obtain ⟨isName, others⟩ := List.forall_mem_cons.1 areNames
    rw [List.map_cons, List.foldlM_cons] at led
    obtain ⟨next, first, led⟩ := bind_eq_ok.1 led
    rw [ih others led, eq_of_step isName first, List.append_assoc, List.singleton_append]

theorem eq_of_locate {place : List String} (areNames : ∀ name ∈ names, IsName name)
    (located : tree.locate (pathOf names) = .ok place) : place = names := by
  have root : tree.step [] [] = .ok [] := rfl
  unfold locate at located
  split_ifs at located with zero empty long absolute
  · rw [split_pathOf (steps_of_names areNames), List.foldlM_cons, root] at located
    split_ifs at located with none
    · subst none
      exact (Except.ok.inj located).symm
    · exact eq_of_foldlM_step areNames located
  · exact absurd (isAbsolute_pathOf names) absolute

theorem exists_of_readBytes {path : Path} {content : ByteArray}
    (read : tree.readBytes path = .ok content) :
    ∃ place, tree.locate path = .ok place ∧ tree.contentAt? place = some content := by
  unfold readBytes at read
  split at read
  · next kept found =>
    obtain rfl := Except.ok.inj read
    obtain ⟨place, located, isNode⟩ := bind_eq_ok.1 found
    refine ⟨place, located, ?_⟩
    cases isThere : tree.nodeAt? place with
    | none => simp [isThere] at isNode
    | some node =>
      obtain rfl : node = .file kept := by simpa [isThere] using isNode
      rw [contentAt?, isThere]
  · cases read
  · cases read

theorem readBytes_of_readText {path : Path} {text : String} (read : tree.readText path = .ok text) :
    ∃ content, tree.readBytes path = .ok content := by
  unfold readText at read
  cases bytes : tree.readBytes path with
  | error fault => simp [bytes] at read
  | ok content => exact ⟨content, rfl⟩

theorem file_of_readBytes {content : ByteArray} (areNames : ∀ name ∈ names, IsName name)
    (read : tree.readBytes (pathOf names) = .ok content) :
    tree.contentAt? names = some content := by
  obtain ⟨place, located, isFile⟩ := exists_of_readBytes read
  exact eq_of_locate areNames located ▸ isFile

def HasFileBelow (tree : FileTree) (root path : Path) : Prop :=
  ∃ place names, tree.locate root = .ok place ∧ path = names.foldl child root ∧
    (tree.contentAt? (place ++ names)).isSome

theorem contentAt?_eq_some {content : ByteArray} :
    tree.contentAt? names = some content ↔ tree.nodeAt? names = some (.file content) := by
  unfold contentAt?
  rcases tree.nodeAt? names with _ | ⟨found | entries⟩ <;> simp

theorem isSome_nodeAt? (file : (tree.contentAt? names).isSome) : (tree.nodeAt? names).isSome := by
  obtain ⟨content, isContent⟩ := Option.isSome_iff_exists.1 file
  rw [contentAt?_eq_some.1 isContent]
  rfl

theorem Proper.isName_of_file (proper : tree.Proper) (file : (tree.contentAt? names).isSome) :
    ∀ name ∈ names, IsName name := proper.isName (isSome_nodeAt? file)

theorem Proper.isStep_of_file (proper : tree.Proper) (file : (tree.contentAt? names).isSome) :
    ∀ name ∈ names, IsStep name := steps_of_names (proper.isName_of_file file)

theorem nodeAt?_of_above (found : (tree.nodeAt? names).isSome) (before : more <+: names) :
    (tree.nodeAt? more).isSome := by
  obtain ⟨rest, rfl⟩ := before
  rw [nodeAt?_append] at found
  cases place : tree.nodeAt? more with
  | none => simp [place] at found
  | some node => rfl

theorem readBytes_pathOf (proper : tree.Proper) {content : ByteArray}
    (isFile : tree.contentAt? names = some content) :
    tree.readBytes (pathOf names) = .ok content := by
  have found := contentAt?_eq_some.1 isFile
  rw [readBytes, node, locate_pathOf proper (by simp [found]), Except.bind, found]

end FileTree

end UtilityCss
