import UtilityCss.CommandLine.Run
import UtilityCss.Proofs.Source.Spellings

set_option autoImplicit false

namespace UtilityCss

open Source UtilityCss.Path FileTree

namespace Candidate

def ofRead : Except FileFault ByteArray → List String
  | .ok content => (Utf8.decode content).toOption.elim [] ofText
  | .error _ => []

theorem ofFile_getD (tree : FileTree) (path : Path) :
    (ofFile tree path).toOption.getD [] = ofRead (tree.readBytes path) := by
  unfold ofFile
  cases tree.readBytes path with
  | error fault => cases fault <;> rfl
  | ok content =>
    dsimp only [ofRead]
    cases Utf8.decode content <;> rfl

theorem candidates_ofFiles (tree : FileTree) (paths : List Path) :
    (ofFiles tree paths).candidates =
      Ordered.ofList ((paths.map tree.readBytes).flatMap ofRead) := by
  simp only [ofFiles, List.flatMap_map, ← ofFile_getD]
  congr 2
  funext path
  cases ofFile tree path <;> rfl

end Candidate

namespace CommandLine

variable {tree : FileTree} {p q : Path} {dir : List String} {entries : List (String × Node)}

theorem directoryCandidates_eq {selector : SourceSelector} {files : List Path}
    (compiled : SourceSelector.ofCatalog tree (SourceCatalog.ofProject p) = .ok selector)
    (found : selector.files? tree = some files) :
    directoryCandidates tree p = .ok
      (CandidatePool.ofList (Candidate.ofFiles tree files).candidates, files) := by
  unfold directoryCandidates
  rw [compiled]
  dsimp only
  rw [found]

theorem directoryCandidates_eq_refused_iff {selector : SourceSelector}
    (compiled : SourceSelector.ofCatalog tree (SourceCatalog.ofProject p) = .ok selector) :
    directoryCandidates tree p = .error .refused ↔ selector.files? tree = none := by
  unfold directoryCandidates
  rw [compiled]
  dsimp only
  cases selector.files? tree <;> simp

theorem directoryCandidates_of_empty (spoken : p.spelling ≠ "")
    (empty : p.normalize.spelling = "") :
    directoryCandidates tree p = .ok (CandidatePool.ofList [], []) := by
  have normal : p.normalize = ⟨""⟩ := by rw [← empty]
  have pattern : globBelow p "**/*" = "**/*" := by
    rw [globBelow, normalize_join_all spoken, normal]
    decide
  have start : fixedStart "**/*" = ⟨""⟩ := by decide
  obtain ⟨glob, read⟩ := exists_of_isOk (by decide +kernel : (Glob.read false "**/*").isOk = true)
  obtain ⟨selector, compiled⟩ :
      ∃ selector, SourceSelector.ofCatalog tree (SourceCatalog.ofProject p) = .ok selector :=
    ⟨_, SourceSelector.ofCatalog_ofProject_iff.2 ⟨glob, pattern.symm ▸ read, rfl⟩⟩
  obtain ⟨_, -, shape⟩ := SourceSelector.ofCatalog_ofProject_iff.1 compiled
  have walks : selector.walks = [⟨⟨""⟩, true⟩] := by rw [shape, pattern, start]
  have nowhere : tree.locate ⟨""⟩ = .error .notFound := by
    unfold FileTree.locate
    rfl
  have nothing : SourceSelector.walked tree selector.walks = [] := by
    rw [walks, SourceSelector.walked, List.flatMap_singleton, Ignore.walk, nowhere]
  have none : selector.files tree = [] := by
    rw [SourceSelector.files, SourceSelector.collect, nothing]
    simp [Path.sort, SourceSelector.distinctPaths]
  refine directoryCandidates_eq compiled (SourceSelector.files?_eq_some_iff.2 ⟨?_, none.symm⟩)
  simp [nothing]

-- A shop beside the working directory, with a page and one that its ignore file names.
private def shops : FileTree :=
  { entries := [("w", .directory
      [("shop", .directory [(".gitignore", .file "b.html\n".toUTF8), ("a.html", .file "flex".toUTF8),
          ("b.html", .file "grid".toUTF8)]),
        ("site", .directory [])])]
    workingDirectory := ["w", "site"] }

private def besideSite : Path := ⟨"../shop/"⟩

private def fromRoot : Path := ⟨"/w/shop"⟩

-- Spelled with a dot the directory is the same, and its ignore file refuses every file below it.
example : (runCandidates shops (some ⟨"/w/./shop"⟩) none false).code = 101 := by decide +kernel

end CommandLine

end UtilityCss
