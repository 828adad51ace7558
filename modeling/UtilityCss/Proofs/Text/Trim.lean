import Mathlib.Data.List.TakeWhile
import UtilityCss.Text.Blank

set_option autoImplicit false

namespace UtilityCss

theorem isBlank_ne {c d : Char} (blank : isBlank c = true) (dark : isBlank d = false) : c ≠ d := by
  rintro rfl
  rw [blank] at dark
  cases dark

theorem isAlphanum_iff (c : Char) : c.isAlphanum = true ↔
    (65 ≤ c.toNat ∧ c.toNat ≤ 90 ∨ 97 ≤ c.toNat ∧ c.toNat ≤ 122) ∨ 48 ≤ c.toNat ∧ c.toNat ≤ 57 := by
  have spelled : c.isAlphanum = ((decide (65 ≤ c.toNat ∧ c.toNat ≤ 90) ||
      (decide (97 ≤ c.toNat) && decide (c.toNat ≤ 122))) ||
        (decide (48 ≤ c.toNat) && decide (c.toNat ≤ 57))) := rfl
  simp [spelled]

namespace Text

def AllBlank (text : List Char) : Prop := ∀ c ∈ text, isBlank c = true

instance (text : List Char) : Decidable (AllBlank text) :=
  decidable_of_iff (text.all isBlank = true) List.all_eq_true

structure Trimmed (text : List Char) : Prop where
  first : ∀ c ∈ text.head?, isBlank c = false
  last : ∀ c ∈ text.getLast?, isBlank c = false

theorem trimStart_cons {c : Char} (dark : isBlank c = false) (text : List Char) :
    trimStart (c :: text) = c :: text := by
  simp [trimStart, dark]

theorem dropWhile_of_first {test : Char → Bool} {text : List Char}
    (first : ∀ c ∈ text.head?, test c = false) : text.dropWhile test = text := by
  cases text with
  | nil => rfl
  | cons c rest => simp [first c rfl]

theorem trimStart_of_first {text : List Char} (first : ∀ c ∈ text.head?, isBlank c = false) :
    trimStart text = text := dropWhile_of_first first

theorem trimStart_blank_append {blanks : List Char} (blank : AllBlank blanks) (text : List Char) :
    trimStart (blanks ++ text) = trimStart text := by
  simp [trimStart, List.dropWhile_append, List.dropWhile_eq_nil_iff.2 blank]

theorem allBlank_cons {c : Char} {text : List Char} :
    AllBlank (c :: text) ↔ isBlank c = true ∧ AllBlank text :=
  List.forall_mem_cons

theorem AllBlank.append {start rest : List Char} (first : AllBlank start) (second : AllBlank rest) :
    AllBlank (start ++ rest) :=
  List.forall_mem_append.2 ⟨first, second⟩

theorem trimStart_of_blank {blanks : List Char} (blank : AllBlank blanks) : trimStart blanks = [] :=
  List.dropWhile_eq_nil_iff.2 blank

theorem trimStart_append_dark {c : Char} (dark : isBlank c = false) (start rest : List Char) :
    trimStart (start ++ c :: rest) = trimStart start ++ c :: rest := by
  rw [trimStart, trimStart, List.dropWhile_append]
  split_ifs with silent
  · rw [List.isEmpty_iff.1 silent, List.dropWhile_cons_of_neg (by simp [dark]), List.nil_append]
  · rfl

theorem trimStart_append_of_not_blank {start : List Char} (spoken : ¬ AllBlank start)
    (rest : List Char) : trimStart (start ++ rest) = trimStart start ++ rest := by
  rw [trimStart, trimStart, List.dropWhile_append, if_neg]
  rw [List.isEmpty_iff, List.dropWhile_eq_nil_iff]
  exact spoken

theorem trimEnd_append_blank {blanks : List Char} (blank : AllBlank blanks) (text : List Char) :
    trimEnd (text ++ blanks) = trimEnd text := by
  have reversed : AllBlank blanks.reverse := fun c member => blank c (List.mem_reverse.1 member)
  simp [trimEnd, dropWhileEnd, List.dropWhile_append, List.dropWhile_eq_nil_iff.2 reversed]

theorem trimEnd_of_last {text : List Char} (last : ∀ c ∈ text.getLast?, isBlank c = false) :
    trimEnd text = text := by
  have first : ∀ c ∈ text.reverse.head?, isBlank c = false := by simpa using last
  have kept : text.reverse.dropWhile isBlank = text.reverse := trimStart_of_first first
  simp [trimEnd, dropWhileEnd, kept]

theorem exists_trimStart (text : List Char) :
    ∃ blanks, AllBlank blanks ∧ text = blanks ++ trimStart text :=
  ⟨text.takeWhile isBlank, fun _ member => List.mem_takeWhile_imp member,
    List.takeWhile_append_dropWhile.symm⟩

theorem exists_trimEnd (text : List Char) :
    ∃ blanks, AllBlank blanks ∧ text = trimEnd text ++ blanks := by
  obtain ⟨blanks, blank, joined⟩ := exists_trimStart text.reverse
  refine ⟨blanks.reverse, fun c member => blank c (List.mem_reverse.1 member), ?_⟩
  have back := congrArg List.reverse joined
  simpa [trimEnd, dropWhileEnd, trimStart] using back

theorem first_trimStart (text : List Char) : ∀ c ∈ (trimStart text).head?, isBlank c = false := by
  intro c first
  have found := List.head?_dropWhile_not isBlank text
  rw [trimStart] at first
  rw [Option.mem_def.1 first] at found
  simpa using found

theorem last_trimEnd (text : List Char) : ∀ c ∈ (trimEnd text).getLast?, isBlank c = false := by
  intro c last
  refine first_trimStart text.reverse c ?_
  simpa [trimEnd, dropWhileEnd, trimStart] using last

-- The last character of a text is that of each end of it.
theorem last_of_suffix {text finish : List Char} (suffix : finish <:+ text)
    (last : ∀ c ∈ text.getLast?, isBlank c = false) :
    ∀ c ∈ finish.getLast?, isBlank c = false := by
  intro c found
  obtain ⟨start, rfl⟩ := suffix
  refine last c ?_
  rw [Option.mem_def] at found ⊢
  simp [List.getLast?_append, found]

theorem trimmed_of_dark {text : List Char} (dark : ∀ c ∈ text, isBlank c = false) : Trimmed text where
  first c found := dark c (List.mem_of_mem_head? found)
  last c found := dark c (List.mem_of_mem_getLast? found)

theorem Trimmed.append {start rest : List Char} (first : Trimmed start) (second : Trimmed rest) :
    Trimmed (start ++ rest) where
  first c found := by
    cases start with
    | nil => exact second.first c found
    | cons d start => exact first.first c found
  last c found := by
    rw [List.getLast?_append] at found
    cases own : rest.getLast? with
    | none => exact first.last c (by simpa [own] using found)
    | some d => exact second.last c (by simpa [own] using found)

theorem trim_eq_self {text : List Char} (trimmed : Trimmed text) : trim text = text := by
  rw [trim, trimStart_of_first trimmed.first, trimEnd_of_last trimmed.last]

theorem trimmed_trim (text : List Char) : Trimmed (trim text) where
  last := last_trimEnd (trimStart text)
  first c found := by
    obtain ⟨blanks, _, joined⟩ := exists_trimEnd (trimStart text)
    refine first_trimStart text c ?_
    rw [Option.mem_def] at found ⊢
    rw [joined, List.head?_append]
    simp [show (trimEnd (trimStart text)).head? = some c from found]

theorem exists_trim_cons {c : Char} (dark : isBlank c = false) (text : List Char) :
    ∃ rest, trim (c :: text) = c :: rest := by
  obtain ⟨blanks, blank, joined⟩ := exists_trimEnd (c :: text)
  rw [trim, trimStart_cons dark]
  cases kept : trimEnd (c :: text) with
  | nil =>
    rw [kept, List.nil_append] at joined
    have light : isBlank c = true := blank c (joined ▸ List.mem_cons_self)
    simp [dark] at light
  | cons d rest =>
    rw [kept, List.cons_append] at joined
    exact ⟨rest, by rw [(List.cons.inj joined).1]⟩

theorem trim_blank_append {blanks : List Char} (blank : AllBlank blanks) (text : List Char) :
    trim (blanks ++ text) = trim text := by
  rw [trim, trimStart_blank_append blank, trim]

theorem trim_append_blank {blanks : List Char} (blank : AllBlank blanks) (text : List Char) :
    trim (text ++ blanks) = trim text := by
  simp only [trim, trimStart, List.dropWhile_append]
  split
  · rename_i empty
    have nothing : text.dropWhile isBlank = [] := List.isEmpty_iff.1 empty
    rw [nothing, List.dropWhile_eq_nil_iff.2 blank]
  · exact trimEnd_append_blank blank _

-- What trimming leaves, between the blanks that it takes.
theorem exists_trim (text : List Char) :
    ∃ before after, AllBlank before ∧ AllBlank after ∧ text = before ++ trim text ++ after := by
  obtain ⟨before, blank, joined⟩ := exists_trimStart text
  obtain ⟨after, blank', joined'⟩ := exists_trimEnd (trimStart text)
  refine ⟨before, after, blank, blank', ?_⟩
  rw [List.append_assoc, trim, ← joined', ← joined]

theorem exists_trim_dark {c : Char} (dark : isBlank c = false) (text : List Char) :
    ∃ blanks, AllBlank blanks ∧ c :: text = trim (c :: text) ++ blanks := by
  rw [trim, trimStart_cons dark]
  exact exists_trimEnd (c :: text)

-- Trimming takes nothing between characters that are not blank.
theorem trim_append_dark {start : List Char} (first : ∀ c ∈ start.head?, isBlank c = false)
    {c : Char} (dark : isBlank c = false) (text : List Char) :
    trim (start ++ c :: text) = start ++ trim (c :: text) := by
  obtain ⟨kept, trimmed⟩ := exists_trim_cons dark text
  obtain ⟨blanks, blank, joined⟩ := exists_trim_dark dark text
  have inner : Trimmed (start ++ trim (c :: text)) := by
    refine ⟨fun d found => ?_, fun d found => (trimmed_trim (c :: text)).last d ?_⟩
    · cases start with
      | nil => exact (trimmed_trim (c :: text)).first d found
      | cons e start => exact first d found
    · rw [trimmed] at found ⊢
      simpa [List.getLast?_append] using found
  calc trim (start ++ c :: text)
    _ = trim (start ++ trim (c :: text) ++ blanks) := by rw [List.append_assoc, ← joined]
    _ = start ++ trim (c :: text) := by rw [trim_append_blank blank, trim_eq_self inner]

-- What stands between characters to be dropped and starts and ends with others is what is left.
theorem trimWhere_between {test : Char → Bool} {before text after : List Char}
    (starts : ∀ c ∈ before, test c = true) (ends : ∀ c ∈ after, test c = true)
    (first : ∀ c ∈ text.head?, test c = false) (last : ∀ c ∈ text.getLast?, test c = false) :
    trimWhere test (before ++ text ++ after) = text := by
  have behind : ∀ c ∈ after.reverse, test c = true := fun c member =>
    ends c (List.mem_reverse.1 member)
  have kept : text.reverse.dropWhile test = text.reverse :=
    dropWhile_of_first (by simpa using last)
  rw [trimWhere, List.append_assoc, List.dropWhile_append_of_pos starts]
  cases text with
  | nil => simp [dropWhileEnd, List.dropWhile_eq_nil_iff.2 ends]
  | cons c rest =>
    have whole : (c :: rest ++ after).dropWhile test = c :: rest ++ after := dropWhile_of_first first
    rw [whole, dropWhileEnd, List.reverse_append, List.dropWhile_append_of_pos behind, kept,
      List.reverse_reverse]

end Text

end UtilityCss
