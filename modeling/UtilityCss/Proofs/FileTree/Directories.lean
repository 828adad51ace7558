import UtilityCss.Proofs.FileTree.Outline
import UtilityCss.Proofs.Path.Location
import UtilityCss.Proofs.Result

set_option autoImplicit false

namespace UtilityCss.FileTree

open UtilityCss.Path

def SameDirectories (tree other : FileTree) : Prop :=
  ∀ names, (other.nodeAt? names).any Node.isDirectory = (tree.nodeAt? names).any Node.isDirectory

def ReadsAlike (tree other : FileTree) (file : Path) : Prop :=
  (other.readText file).toOption = (tree.readText file).toOption

instance (tree other : FileTree) (file : Path) : Decidable (ReadsAlike tree other file) :=
  inferInstanceAs (Decidable (_ = _))

variable {tree other : FileTree} {path file : Path} {place onward names : List String}
  {piece : List Char} {pieces : List (List Char)} {text : String}

theorem sameDirectories_of_outline (same : tree.outline = other.outline) :
    SameDirectories tree other := by
  intro names
  have kept (node : Node) : node.outline.isDirectory = node.isDirectory := by cases node <;> rfl
  have outlines := congrArg (fun tree : FileTree => (tree.nodeAt? names).any Node.isDirectory) same
  simpa only [nodeAt?_outline, Option.any_map, Function.comp_def, kept] using outlines.symm

theorem sameDirectories_of_files (bare : ∀ entry ∈ tree.entries, entry.2.isDirectory = false)
    (bareToo : ∀ entry ∈ other.entries, entry.2.isDirectory = false) :
    SameDirectories tree other := by
  have root {tree : FileTree} (bare : ∀ entry ∈ tree.entries, entry.2.isDirectory = false)
      (names : List String) : (tree.nodeAt? names).any Node.isDirectory = names.isEmpty := by
    cases names with
    | nil => rfl
    | cons name rest =>
      rw [nodeAt?, FileTree.root, Node.at?]
      cases listed : Table.get? name tree.entries with
      | none => rfl
      | some node =>
        have isFile := bare _ (Table.mem_of_get? listed)
        rcases node with content | entries
        · cases rest <;> rfl
        · cases isFile
  exact fun names => (root bareToo names).trans (root bare names).symm

theorem SameDirectories.symm (same : SameDirectories tree other) : SameDirectories other tree :=
  fun names => (same names).symm

theorem SameDirectories.exists_entries (same : SameDirectories tree other)
    {entries : List (String × Node)} (found : tree.nodeAt? names = some (.directory entries)) :
    ∃ others, other.nodeAt? names = some (.directory others) := by
  have directory := same names
  rw [found] at directory
  rcases isThere : other.nodeAt? names with _ | (content | others)
  · simp [isThere, Node.isDirectory] at directory
  · simp [isThere, Node.isDirectory] at directory
  · exact ⟨others, rfl⟩

theorem contains_entries {entries : List (String × Node)} {name : String}
    (found : tree.nodeAt? place = some (.directory entries)) :
    Table.contains name entries = (tree.nodeAt? (place ++ [name])).isSome := by
  rw [nodeAt?_append, found, Option.bind_some, Node.at?, Table.contains]
  cases Table.get? name entries <;> rfl

theorem exists_entries_of_step (led : tree.step place piece = .ok onward) :
    ∃ entries, tree.nodeAt? place = some (.directory entries) := by
  unfold step at led
  split at led
  · next entries found => exact ⟨entries, found⟩
  · cases led

theorem step_transfer (same : SameDirectories tree other)
    (led : tree.step place piece = .ok onward) (there : (other.nodeAt? onward).isSome) :
    other.step place piece = .ok onward := by
  obtain ⟨entries, found⟩ := exists_entries_of_step led
  obtain ⟨others, again⟩ := same.exists_entries found
  rw [step, found] at led
  rw [step, again]
  dsimp only at led ⊢
  split_ifs at led with silent up long listed
  · rw [if_pos silent]
    exact led
  · rw [if_neg silent, if_pos up]
    exact led
  · obtain rfl := Except.ok.inj led
    rw [if_neg silent, if_neg up, if_neg long, contains_entries again, if_pos there]

-- A step leads from a directory, and the directories are the same. So all that matters is whether
-- something is where the last step leads.
theorem foldlM_step_transfer (same : SameDirectories tree other)
    (led : pieces.foldlM tree.step place = .ok onward) (there : (other.nodeAt? onward).isSome) :
    pieces.foldlM other.step place = .ok onward := by
  induction pieces generalizing place with
  | nil => exact led
  | cons piece rest ih =>
    rw [List.foldlM_cons] at led ⊢
    obtain ⟨next, first, later⟩ := bind_eq_ok.1 led
    refine bind_eq_ok.2 ⟨next, step_transfer same first ?_, ih later⟩
    cases rest with
    | nil => exact Except.ok.inj later ▸ there
    | cons second more =>
      rw [List.foldlM_cons] at later
      obtain ⟨last, further, -⟩ := bind_eq_ok.1 later
      obtain ⟨entries, found⟩ := exists_entries_of_step further
      obtain ⟨others, again⟩ := same.exists_entries found
      rw [again, Option.isSome_some]

theorem locate_transfer (same : SameDirectories tree other) (absolute : path.isAbsolute = true)
    (located : tree.locate path = .ok place) (there : (other.nodeAt? place).isSome) :
    other.locate path = .ok place := by
  unfold locate at located ⊢
  rw [if_pos absolute] at located ⊢
  split_ifs at located ⊢
  exact foldlM_step_transfer same located there

theorem canonicalize_transfer (same : SameDirectories tree other)
    (absolute : path.isAbsolute = true) (found : tree.canonicalize path = .ok file)
    (readable : (other.readText file).isOk) : other.canonicalize path = .ok file := by
  obtain ⟨place, located, rfl⟩ := map_eq_ok.1 found
  obtain ⟨text, isText⟩ := exists_of_isOk readable
  obtain ⟨content, read⟩ := readBytes_of_readText isText
  have isFile := file_of_readBytes (isName_of_locate (.inl absolute) located) read
  have there : (other.nodeAt? place).isSome := isSome_nodeAt? (by rw [isFile, Option.isSome_some])
  rw [canonicalize, locate_transfer same absolute located there, Except.map]

theorem readsAlike_of_eq (equal : other.readText file = tree.readText file) :
    ReadsAlike tree other file := congrArg Except.toOption equal

theorem ReadsAlike.ok (alike : ReadsAlike tree other file) (isText : tree.readText file = .ok text) :
    other.readText file = .ok text := by
  rw [ReadsAlike, isText] at alike
  cases read : other.readText file with
  | error fault => simp [read, Except.toOption] at alike
  | ok again =>
    rw [read] at alike
    exact congrArg Except.ok (Option.some.inj alike)

theorem ReadsAlike.error (alike : ReadsAlike tree other file) {fault : FileFault}
    (fails : tree.readText file = .error fault) : ∃ fault, other.readText file = .error fault := by
  rw [ReadsAlike, fails] at alike
  cases read : other.readText file with
  | error fault => exact ⟨fault, rfl⟩
  | ok text => simp [read, Except.toOption] at alike

theorem readBytes_transfer (same : SameDirectories tree other) (absolute : file.isAbsolute = true)
    (equal : other.contentAt? file.location.names = tree.contentAt? file.location.names)
    {content : ByteArray} (read : tree.readBytes file = .ok content) :
    other.readBytes file = .ok content := by
  obtain ⟨place, located, isFile⟩ := exists_of_readBytes read
  rw [← (location_of_locate absolute located).2, isFile] at equal
  have found := contentAt?_eq_some.1 equal
  have again := locate_transfer same absolute located (by rw [found, Option.isSome_some])
  rw [readBytes, node, again, Except.bind, found]

theorem readsAlike_of_contentAt? (same : SameDirectories tree other)
    (absolute : file.isAbsolute = true)
    (equal : other.contentAt? file.location.names = tree.contentAt? file.location.names) :
    ReadsAlike tree other file := by
  unfold ReadsAlike readText
  cases read : tree.readBytes file with
  | ok content => rw [readBytes_transfer same absolute equal read]
  | error fault =>
    cases again : other.readBytes file with
    | error fault => rfl
    | ok content => simp [readBytes_transfer same.symm absolute equal.symm again] at read

end UtilityCss.FileTree
