import UtilityCss.Proofs.Stylesheet.Places
import UtilityCss.Proofs.Text.Ink
import UtilityCss.Stylesheet.Basic

set_option autoImplicit false

namespace UtilityCss

namespace Text

def rejoined (text : List Char) : List Char := trim (join ['\n'] (lines text))

theorem count_lines {c : Char} (dark : isBlank c = false) (text : List Char) :
    (lines text).flatten.count c = text.count c := by
  rw [← count_ink dark, ink_flatten, ink_lines, count_ink dark]

theorem count_trim {c : Char} (dark : isBlank c = false) (text : List Char) :
    (trim text).count c = text.count c := by
  rw [← count_ink dark, ink_trim, count_ink dark]

theorem count_rejoined {c : Char} (dark : isBlank c = false) (text : List Char) :
    (rejoined text).count c = text.count c := by
  have feed : isBlank '\n' = true := by decide
  rw [← count_ink dark, rejoined, ink_trim, ink_join feed, ink_lines, count_ink dark]

theorem trim_ended (lines : List (List Char)) :
    trim (lines.flatMap fun line => line ++ ['\n']) = trim (join ['\n'] lines) := by
  have blank : AllBlank ['\n'] := by simp [AllBlank]; decide
  cases lines with
  | nil => rfl
  | cons line lines =>
    have ended : ((line :: lines).flatMap fun line => line ++ ['\n']) =
        join ['\n'] (line :: lines) ++ ['\n'] := by
      induction lines generalizing line with
      | nil => simp [join]
      | cons next lines ih =>
        rw [List.flatMap_cons, ih]
        simp [join]
    rw [ended, trim_append_blank blank]

end Text

namespace Stylesheet

def Plain (text : List Char) : Prop := '@' ∉ text

instance (text : List Char) : Decidable (Plain text) := inferInstanceAs (Decidable (¬ _))

theorem isPrefixOf_of_plain {text : List Char} (plain : Plain text) (name : List Char) :
    ('@' :: name).isPrefixOf? text = none := by
  cases text with
  | nil => rfl
  | cons c rest =>
    have other : '@' ≠ c := fun same => plain (same ▸ List.mem_cons_self)
    simp [List.isPrefixOf?, other]

theorem cutFrom_plain {text : List Char} (plain : Plain text) (place : Place) :
    cutFrom place text = ⟨[], text⟩ := by
  induction text generalizing place with
  | nil => simp [cutFrom]
  | cons c rest ih =>
    obtain ⟨other, below⟩ : '@' ≠ c ∧ Plain rest := by simpa [Plain] using plain
    have outside : (place.isOutermost && themeMarker.isPrefixOf (c :: rest)) ≠ true := by
      simp [themeMarker, List.isPrefixOf, other]
    rw [cutFrom, if_neg outside, ih below]
    rfl

def attach (start : List Char) : List (List Char) → List (List Char)
  | [] => [start]
  | piece :: pieces => (start ++ piece) :: pieces

theorem flatten_attach (start : List Char) (pieces : List (List Char)) :
    (attach start pieces).flatten = start ++ pieces.flatten := by
  cases pieces <;> simp [attach]

-- A character of a line goes into the first statement, and may end it.
theorem splitStatements_cons (depth : Nat) (quoted : Option (Char × Bool)) (c : Char)
    (rest : List Char) :
    ∃ depth' quoted', splitStatements depth quoted (c :: rest) =
        attach [c] (splitStatements depth' quoted' rest) ∨
      splitStatements depth quoted (c :: rest) = [c] :: splitStatements depth' quoted' rest := by
  cases quoted <;> simp only [splitStatements] <;> split_ifs
  all_goals first | exact ⟨_, _, .inl rfl⟩ | exact ⟨_, _, .inr rfl⟩

theorem flatten_splitStatements (depth : Nat) (quoted : Option (Char × Bool)) (text : List Char) :
    (splitStatements depth quoted text).flatten = text := by
  induction text generalizing depth quoted with
  | nil => rfl
  | cons c rest ih =>
    obtain ⟨depth', quoted', split | split⟩ := splitStatements_cons depth quoted c rest
    · rw [split, flatten_attach, ih, List.singleton_append]
    · rw [split, List.flatten_cons, ih, List.singleton_append]

theorem directive_of_plain {statement : List Char} (plain : Plain statement) :
    directive? statement = none := by
  have trimmed : Plain (Text.trim statement) := by
    rw [Plain, ← List.count_eq_zero, Text.count_trim (by decide), List.count_eq_zero]
    exact plain
  simp [directive?, importMark, sourceMark, configMark, isPrefixOf_of_plain trimmed]

theorem readLine_plain {line : List Char} (plain : Plain line) : readLine line = ⟨[], some line⟩ := by
  have nothing : ∀ piece ∈ statementsOf line, directive? piece = none := by
    intro piece listed
    apply directive_of_plain
    intro member
    have within := List.mem_flatten.2 ⟨piece, listed, member⟩
    rw [statementsOf, flatten_splitStatements] at within
    exact plain within
  have none_found : ((statementsOf line).map fun piece => (directive? piece, piece)).filterMap
      Prod.fst = [] := by
    simpa [List.filterMap_eq_nil_iff] using nothing
  simp [readLine, none_found]

theorem bodyOf_plain {text : List Char} (plain : Plain text) :
    bodyOf ((Text.lines text).map readLine) = Text.rejoined text := by
  have plain_lines : ∀ line ∈ Text.lines text, Plain line := by
    intro line listed member
    have within := List.count_pos_iff.2 (List.mem_flatten.2 ⟨line, listed, member⟩)
    rw [Text.count_lines (by decide)] at within
    exact plain (List.count_pos_iff.1 within)
  have kept : ((Text.lines text).map readLine).filterMap ReadLine.kept = Text.lines text := by
    have same : ∀ line ∈ Text.lines text, (ReadLine.kept ∘ readLine) line = some line :=
      fun line listed => congrArg ReadLine.kept (readLine_plain (plain_lines line listed))
    rw [List.filterMap_map, List.filterMap_congr same, List.filterMap_some]
  rw [bodyOf, kept, Text.trim_ended]
  rfl

end Stylesheet

end UtilityCss
