import UtilityCss.Proofs.Path.Location
import UtilityCss.Proofs.Source.Agreement

set_option autoImplicit false

namespace UtilityCss

open Source UtilityCss.Path FileTree

namespace SourceSelector

variable {tree : FileTree} {catalog : SourceCatalog} {selector : SourceSelector} {entry : Entry}
  {names texts : List String} {path : Path}

theorem selects_of_selectsDeclared (declared : selector.selectsDeclared path = true) :
    selector.selects path = true := by
  simp only [selectsDeclared, Bool.and_eq_true, Bool.not_eq_true'] at declared
  exact selects_eq_true_iff.2 ⟨declared.1.1, .inl ⟨declared.1.2, declared.2⟩⟩

section Compiled

variable (proper : tree.Proper) (compiles : Compiles tree catalog selector)
  (absolute : ∀ entry ∈ catalog.entries, entry.origin ≠ .negated → entry.base.isAbsolute = true)

include proper absolute

theorem exists_texts_of_below (isSource : entry ∈ catalog.sources)
    (below : tree.HasFileBelow (fixedStart entry.glob) path) :
    ∃ texts names place, path = pathOf (texts ++ names) ∧ (∀ text ∈ texts ++ names, IsStep text) ∧
      tree.locate (pathOf texts) = .ok place ∧ (tree.contentAt? (place ++ names)).isSome := by
  obtain ⟨texts, steps, root⟩ := exists_place absolute isSource
  obtain ⟨place, names, located, rfl, file⟩ := below
  obtain ⟨-, further⟩ := List.forall_mem_append.1 (proper.isStep_of_file file)
  rw [root] at located ⊢
  exact ⟨texts, names, place, foldl_child_pathOf steps further,
    List.forall_mem_append.2 ⟨steps, further⟩, located, file⟩

include compiles

theorem exists_texts_of_mem_files (member : path ∈ selector.files tree) :
    ∃ texts, (∀ text ∈ texts, IsStep text) ∧ path = pathOf texts := by
  obtain ⟨-, entry, isSource, below⟩ := hasFileBelow_of_mem_files proper compiles member
  obtain ⟨texts, names, -, same, steps, -⟩ := exists_texts_of_below proper absolute isSource below
  exact ⟨texts ++ names, steps, same⟩

theorem readBytes_of_mem_files (member : path ∈ selector.files tree)
    (short : path.spelling.utf8ByteSize ≤ longestPath) :
    ∃ content, tree.readBytes path = .ok content := by
  obtain ⟨-, entry, isSource, below⟩ := hasFileBelow_of_mem_files proper compiles member
  obtain ⟨texts, names, place, rfl, steps, located, file⟩ :=
    exists_texts_of_below proper absolute isSource below
  obtain ⟨content, isContent⟩ := Option.isSome_iff_exists.1 file
  obtain ⟨start, -⟩ := List.forall_mem_append.1 steps
  refine ⟨content, ?_⟩
  rw [readBytes, node, locate_pathOf_append proper start located file short, Except.bind,
    contentAt?_eq_some.1 isContent]

theorem mem_files_of_declared (member : path ∈ selector.declaredFiles tree) :
    path ∈ selector.files tree := by
  obtain ⟨accepted, walk, isWalk, found⟩ := mem_of_mem_collect member
  obtain ⟨file, isFile, same⟩ :=
    exists_mem_collect (selects_of_selectsDeclared accepted) (List.mem_filter.1 isWalk).1 found
  obtain ⟨-, entry, isSource, -, below⟩ := mem_declaredFiles proper compiles member
  obtain ⟨texts, names, -, rfl, steps, -⟩ := exists_texts_of_below proper absolute isSource below
  obtain ⟨others, further, rfl⟩ := exists_texts_of_mem_files proper compiles absolute isFile
  rw [same_pathOf steps further] at same
  exact same ▸ isFile

end Compiled

end SourceSelector

end UtilityCss
