import UtilityCss.Proofs.FileTree.Directories
import UtilityCss.Proofs.Path.Location
import UtilityCss.Proofs.Path.Order
import UtilityCss.Proofs.Source.FixedStart
import UtilityCss.Stylesheet.Imports

set_option autoImplicit false

namespace UtilityCss.Stylesheet

open UtilityCss.Path UtilityCss.FileTree

inductive Outcome where
  | remote
  | circular
  | unreadable (fault : FileFault)
  | read (sheet : Stylesheet)

structure Visit where
  entry : SheetImport
  outcome : Outcome

namespace Visit

def sheet? : Visit → Option Stylesheet
  | ⟨_, .read sheet⟩ => some sheet
  | _ => none

def stays : Visit → Bool
  | ⟨_, .remote⟩ => true
  | ⟨_, .unreadable _⟩ => true
  | _ => false

def told (visit : Visit) : SheetImport × Bool × Option Stylesheet :=
  (visit.entry, visit.stays, visit.sheet?)

end Visit

/-- The imports of a file are followed one after the other, and what a file imports comes before the
file. The chain holds the files on the way to the imports. -/
inductive Follows (tree : FileTree) : List Path → List SheetImport → List Visit → Prop
  | nil {chain : List Path} : Follows tree chain [] []
  | remote {chain : List Path} {entry : SheetImport} {rest : List SheetImport}
      {visits : List Visit} (bare : entry.path = none) (later : Follows tree chain rest visits) :
      Follows tree chain (entry :: rest) (⟨entry, .remote⟩ :: visits)
  | circular {chain : List Path} {entry : SheetImport} {rest : List SheetImport}
      {visits : List Visit} {path : Path} (target : entry.path = some path)
      (closes : chain.any path.same = true) (later : Follows tree chain rest visits) :
      Follows tree chain (entry :: rest) (⟨entry, .circular⟩ :: visits)
  | unreadable {chain : List Path} {entry : SheetImport} {rest : List SheetImport}
      {visits : List Visit} {path : Path} {fault : FileFault} (target : entry.path = some path)
      (fresh : chain.any path.same = false) (fails : tree.readText path = .error fault)
      (later : Follows tree chain rest visits) :
      Follows tree chain (entry :: rest) (⟨entry, .unreadable fault⟩ :: visits)
  | read {chain : List Path} {entry : SheetImport} {rest : List SheetImport}
      {below visits : List Visit} {path : Path} {css : String} (target : entry.path = some path)
      (fresh : chain.any path.same = false) (text : tree.readText path = .ok css)
      (within : Follows tree (chain ++ [path]) (parse path css).imports below)
      (later : Follows tree chain rest visits) :
      Follows tree chain (entry :: rest) (below ++ ⟨entry, .read (parse path css)⟩ :: visits)

variable {tree : FileTree} {chain : List Path} {entries : List SheetImport}
  {visits others : List Visit} {path : Path} {css : String}

theorem Follows.unique (follows : Follows tree chain entries visits)
    (other : Follows tree chain entries others) : visits = others := by
  induction follows generalizing others with
  | nil => cases other; rfl
  | remote bare later ih =>
    cases other with
    | remote _ rest => rw [ih rest]
    | circular target | unreadable target | read target => cases bare.symm.trans target
  | circular target closes later ih =>
    cases other with
    | remote bare => cases bare.symm.trans target
    | circular _ _ rest => rw [ih rest]
    | unreadable named fresh | read named fresh =>
      obtain rfl := Option.some.inj (target.symm.trans named)
      cases closes.symm.trans fresh
  | unreadable target fresh fails later ih =>
    cases other with
    | remote bare => cases bare.symm.trans target
    | circular named closes =>
      obtain rfl := Option.some.inj (target.symm.trans named)
      cases closes.symm.trans fresh
    | unreadable named _ failed rest =>
      obtain rfl := Option.some.inj (target.symm.trans named)
      obtain rfl := Except.error.inj (fails.symm.trans failed)
      rw [ih rest]
    | read named _ text =>
      obtain rfl := Option.some.inj (target.symm.trans named)
      cases fails.symm.trans text
  | read target fresh text within later inner ih =>
    cases other with
    | remote bare => cases bare.symm.trans target
    | circular named closes =>
      obtain rfl := Option.some.inj (target.symm.trans named)
      cases closes.symm.trans fresh
    | unreadable named _ failed =>
      obtain rfl := Option.some.inj (target.symm.trans named)
      cases text.symm.trans failed
    | read named _ content inside rest =>
      obtain rfl := Option.some.inj (target.symm.trans named)
      obtain rfl := Except.ok.inj (text.symm.trans content)
      rw [inner inside, ih rest]

theorem Follows.transfer {other : FileTree} (follows : Follows tree chain entries visits)
    (alike : ∀ visit ∈ visits, ∀ file, visit.entry.path = some file →
      ReadsAlike tree other file) :
    ∃ others, Follows other chain entries others ∧ others.map Visit.told = visits.map Visit.told := by
  induction follows with
  | nil => exact ⟨[], .nil, rfl⟩
  | remote bare later ih =>
    obtain ⟨others, again, same⟩ := ih (List.forall_mem_cons.1 alike).2
    exact ⟨_, .remote bare again, by rw [List.map_cons, List.map_cons, same]⟩
  | circular target closes later ih =>
    obtain ⟨others, again, same⟩ := ih (List.forall_mem_cons.1 alike).2
    exact ⟨_, .circular target closes again, by rw [List.map_cons, List.map_cons, same]⟩
  | unreadable target fresh fails later ih =>
    obtain ⟨own, rest⟩ := List.forall_mem_cons.1 alike
    obtain ⟨fault, failsToo⟩ := (own _ target).error fails
    obtain ⟨others, again, same⟩ := ih rest
    exact ⟨_, .unreadable target fresh failsToo again, by rw [List.map_cons, List.map_cons, same]; rfl⟩
  | read target fresh text within later inner ih =>
    obtain ⟨inside, rest⟩ := List.forall_mem_append.1 alike
    obtain ⟨own, behind⟩ := List.forall_mem_cons.1 rest
    obtain ⟨below, followsBelow, sameBelow⟩ := inner inside
    obtain ⟨others, again, same⟩ := ih behind
    refine ⟨_, .read target fresh ((own _ target).ok text) followsBelow again, ?_⟩
    rw [List.map_append, List.map_append, List.map_cons, List.map_cons, sameBelow, same]

structure IsWritten (entry : SheetImport) : Prop where
  fresh : entry.inlined = false
  normal : ∀ path, entry.path = some path → IsNormal path

theorem isWritten_of_parse (absolute : path.directory.isAbsolute = true) :
    ∀ entry ∈ (parse path css).imports, IsWritten entry := by
  intro entry member
  obtain ⟨directive, -, made⟩ := List.mem_filterMap.1 member
  cases directive with
  | importFile target statement =>
    obtain rfl := Option.some.inj made
    refine ⟨rfl, fun path named => ?_⟩
    dsimp only at named
    split_ifs at named
    obtain rfl := Option.some.inj named
    exact isNormal_normalize (Source.isAbsolute_join absolute)
  | engineImport | source | config => cases made

/-- Distinct files that can be read, on the way to an import. -/
structure IsChain (tree : FileTree) (chain : List Path) : Prop where
  distinct : chain.Nodup
  normal : ∀ path ∈ chain, IsNormal path
  readable : ∀ path ∈ chain, ∃ content, tree.readBytes path = .ok content

theorem IsChain.length_le (isChain : IsChain tree chain) : chain.length ≤ 2 * tree.fileCount :=
  length_le_of_files isChain.normal isChain.readable isChain.distinct

theorem IsChain.concat (isChain : IsChain tree chain) (normal : IsNormal path)
    (fresh : chain.any path.same = false) (text : tree.readText path = .ok css) :
    IsChain tree (chain ++ [path]) where
  distinct := by
    refine List.nodup_append.2 ⟨isChain.distinct, List.nodup_singleton _, ?_⟩
    rintro other member next isNext rfl
    obtain rfl := List.mem_singleton.1 isNext
    have closes : chain.any other.same = true := List.any_eq_true.2 ⟨other, member, same_refl other⟩
    exact Bool.false_ne_true (fresh.symm.trans closes)
  normal := List.forall_mem_append.2 ⟨isChain.normal, List.forall_mem_singleton.2 normal⟩
  readable := List.forall_mem_append.2
    ⟨isChain.readable, List.forall_mem_singleton.2 (readBytes_of_readText text)⟩

theorem isChain_start (absolute : path.isAbsolute = true) (text : tree.readText path = .ok css) :
    IsChain tree [path.normalize] where
  distinct := List.nodup_singleton _
  normal := List.forall_mem_singleton.2 (isNormal_normalize absolute)
  readable := by
    obtain ⟨content, read⟩ := readBytes_of_readText text
    exact List.forall_mem_singleton.2 ⟨content, readBytes_normalize absolute read⟩

theorem isWritten_of_readText (absolute : path.isAbsolute = true)
    (text : tree.readText path = .ok css) : ∀ entry ∈ (parse path css).imports, IsWritten entry := by
  obtain ⟨content, read⟩ := readBytes_of_readText text
  exact isWritten_of_parse (isAbsolute_directory absolute read)

theorem Follows.written (follows : Follows tree chain entries visits)
    (written : ∀ entry ∈ entries, IsWritten entry) : ∀ visit ∈ visits, IsWritten visit.entry := by
  induction follows with
  | nil => exact List.forall_mem_nil _
  | remote _ _ ih | circular _ _ _ ih | unreadable _ _ _ _ ih =>
    obtain ⟨first, others⟩ := List.forall_mem_cons.1 written
    exact List.forall_mem_cons.2 ⟨first, ih others⟩
  | read target _ text _ _ inner ih =>
    obtain ⟨first, others⟩ := List.forall_mem_cons.1 written
    exact List.forall_mem_append.2
      ⟨inner (isWritten_of_readText (first.normal _ target).isAbsolute text),
        List.forall_mem_cons.2 ⟨first, ih others⟩⟩

theorem Follows.exists_text {visit : Visit} {sheet : Stylesheet}
    (follows : Follows tree chain entries visits) (member : visit ∈ visits)
    (isRead : visit.sheet? = some sheet) :
    ∃ path css, visit.entry.path = some path ∧ tree.readText path = .ok css ∧
      sheet = parse path css := by
  induction follows with
  | nil => cases member
  | remote _ _ ih | circular _ _ _ ih | unreadable _ _ _ _ ih =>
    rcases List.mem_cons.1 member with rfl | later
    · cases isRead
    · exact ih later
  | read target _ text _ _ inner ih =>
    rcases List.mem_append.1 member with below | rest
    · exact inner below
    · rcases List.mem_cons.1 rest with rfl | later
      · exact ⟨_, _, target, text, (Option.some.inj isRead).symm⟩
      · exact ih later

-- By induction on how many more files the way to an import can have.
theorem exists_follows_within (room : Nat) (isChain : IsChain tree chain)
    (written : ∀ entry ∈ entries, IsWritten entry) (enough : 2 * tree.fileCount < chain.length + room) :
    ∃ visits, Follows tree chain entries visits := by
  induction room generalizing chain entries with
  | zero => exact absurd isChain.length_le (Nat.not_le.2 enough)
  | succ room inner =>
    induction entries with
    | nil => exact ⟨[], .nil⟩
    | cons entry rest ih =>
      obtain ⟨first, others⟩ := List.forall_mem_cons.1 written
      obtain ⟨visits, later⟩ := ih others
      cases target : entry.path with
      | none => exact ⟨_, .remote target later⟩
      | some path =>
        cases fresh : chain.any path.same with
        | true => exact ⟨_, .circular target fresh later⟩
        | false =>
          cases text : tree.readText path with
          | error fault => exact ⟨_, .unreadable target fresh text later⟩
          | ok css =>
            have normal := first.normal path target
            -- Only a file that is new on the way is followed, with less room for those behind it.
            obtain ⟨below, within⟩ := inner (isChain.concat normal fresh text)
              (isWritten_of_readText normal.isAbsolute text)
              (by rw [List.length_append, List.length_singleton]; omega)
            exact ⟨_, .read target fresh text within later⟩

theorem exists_follows (isChain : IsChain tree chain)
    (written : ∀ entry ∈ entries, IsWritten entry) : ∃ visits, Follows tree chain entries visits :=
  exists_follows_within (2 * tree.fileCount + 1) isChain written (by omega)

end UtilityCss.Stylesheet
