import Mathlib.Data.List.Basic
import Mathlib.Data.List.Chain
import UtilityCss.Proofs.Text.Cut
import UtilityCss.Proofs.Text.Trim
import UtilityCss.Theme.KeyPath

set_option autoImplicit false

namespace UtilityCss.Theme

namespace WrittenSegment

def isPlain : WrittenSegment → Bool
  | .plain _ => true
  | .bracketed _ => false

def Fits : WrittenSegment → Prop
  | .plain text => text ≠ [] ∧ '.' ∉ text ∧ '[' ∉ text
  | .bracketed text => ']' ∉ text

instance : (segment : WrittenSegment) → Decidable segment.Fits
  | .plain text => inferInstanceAs (Decidable (text ≠ [] ∧ '.' ∉ text ∧ '[' ∉ text))
  | .bracketed text => inferInstanceAs (Decidable (']' ∉ text))

end WrittenSegment

/-- Segments that can be told apart: between plain neighbours stands a point. -/
structure WellWritten (segments : List (Nat × WrittenSegment)) : Prop where
  fits : ∀ entry ∈ segments, entry.2.Fits
  apart : segments.IsChain fun first second =>
    first.2.isPlain = true → second.2.isPlain = true → 0 < second.1

inductive Closed : List Char → Prop
  | nil : Closed []
  | char {c : Char} {rest : List Char} (other : c ≠ '[') (closed : Closed rest) : Closed (c :: rest)
  | bracket {inner rest : List Char} (ends : ']' ∉ inner) (closed : Closed rest) :
      Closed ('[' :: inner ++ ']' :: rest)

instance (segments : List (Nat × WrittenSegment)) : Decidable (WellWritten segments) :=
  decidable_of_iff ((∀ entry ∈ segments, entry.2.Fits) ∧ segments.IsChain fun first second =>
      first.2.isPlain = true → second.2.isPlain = true → 0 < second.1)
    ⟨fun ⟨fits, apart⟩ => ⟨fits, apart⟩, fun ⟨fits, apart⟩ => ⟨fits, apart⟩⟩

/-- A bracket opens outside of all others, and nothing closes it. -/
def OpensForGood (text : List Char) : Prop :=
  ∃ before after, text = before ++ '[' :: after ∧ Closed before ∧ ']' ∉ after

variable {c : Char} {text rest current literal inner : List Char} {before after : Nat}
  {segments written : List (Nat × WrittenSegment)} {first : Nat × WrittenSegment}

theorem plainSegments_append (noPoint : '.' ∉ text) (noBracket : '[' ∉ text)
    (current rest : List Char) :
    plainSegments current (text ++ rest) = plainSegments (current ++ text) rest := by
  induction text generalizing current with
  | nil => simp
  | cons c text ih =>
    rw [List.mem_cons, not_or] at noPoint noBracket
    simp [plainSegments, Ne.symm noPoint.1, Ne.symm noBracket.1, ih noPoint.2 noBracket.2]

theorem plainSegments_points (count : Nat) (rest : List Char) :
    plainSegments [] (List.replicate count '.' ++ rest) = plainSegments [] rest := by
  induction count with
  | zero => rfl
  | succ count ih => simp [List.replicate_succ, plainSegments, finished, ih]

theorem plainSegments_pending (flushed : before = 0 → current = []) (rest : List Char) :
    plainSegments current (List.replicate before '.' ++ rest) =
      (plainSegments [] rest).map (finished current ++ ·) := by
  cases before with
  | zero => simp [flushed rfl, finished]
  | succ count => simp [List.replicate_succ, plainSegments, plainSegments_points]

theorem plainSegments_opening (before : Nat) (current rest : List Char) :
    plainSegments current (List.replicate before '.' ++ '[' :: rest) =
      (bracketSegments [] rest).map (finished current ++ ·) := by
  cases before with
  | zero => simp [plainSegments]
  | succ count =>
    simp [List.replicate_succ, plainSegments, plainSegments_points, finished]

-- A bracketed segment goes on up to the first bracket that closes.
theorem bracketSegments_eq (literal text : List Char) :
    bracketSegments literal text = (Text.splitOnce ']' text).bind fun parts =>
      (plainSegments [] parts.2).map ((literal ++ parts.1) :: ·) := by
  induction text generalizing literal with
  | nil => rfl
  | cons c rest ih =>
    by_cases closes : c = ']'
    · simp [bracketSegments, Text.splitOnce, closes]
    · rw [bracketSegments, if_neg closes, ih, Text.splitOnce, if_neg closes]
      cases Text.splitOnce ']' rest <;> simp

theorem wellWritten_nil : WellWritten [] := ⟨by simp, .nil⟩

theorem wellWritten_cons : WellWritten (first :: segments) ↔
    first.2.Fits ∧ (∀ second ∈ segments.head?, first.2.isPlain = true →
      second.2.isPlain = true → 0 < second.1) ∧ WellWritten segments := by
  constructor
  · rintro ⟨fits, apart⟩
    rw [List.forall_mem_cons] at fits
    rw [List.isChain_cons] at apart
    exact ⟨fits.1, apart.1, fits.2, apart.2⟩
  · rintro ⟨fits, apart, rest⟩
    exact ⟨List.forall_mem_cons.2 ⟨fits, rest.fits⟩, List.isChain_cons.2 ⟨apart, rest.apart⟩⟩

def textsOf (segments : List (Nat × WrittenSegment)) : List (List Char) :=
  segments.map fun entry => entry.2.text

theorem plainSegments_writtenPath (isWritten : WellWritten segments) (after : Nat)
    (apart : current ≠ [] → ∀ second ∈ segments.head?, second.2.isPlain = true → 0 < second.1) :
    plainSegments current (writtenPath segments after) =
      some (finished current ++ textsOf segments) := by
  induction segments generalizing current with
  | nil =>
    cases after with
    | zero => simp [writtenPath, plainSegments, textsOf]
    | succ count =>
      have points : plainSegments current (List.replicate (count + 1) '.' ++ []) =
          (plainSegments [] []).map (finished current ++ ·) := plainSegments_pending (by simp) []
      simpa [writtenPath, plainSegments, finished, textsOf] using points
  | cons first segments ih =>
    obtain ⟨before, segment⟩ := first
    obtain ⟨fits, next, others⟩ := wellWritten_cons.1 isWritten
    cases segment with
    | plain text =>
      obtain ⟨spoken, noPoint, noBracket⟩ := fits
      have flushed : before = 0 → current = [] := by
        rintro rfl
        by_contra pending
        exact absurd (apart pending _ rfl rfl) (Nat.lt_irrefl 0)
      have own : plainSegments [] (text ++ writtenPath segments after) =
          some (finished text ++ textsOf segments) := by
        rw [plainSegments_append noPoint noBracket, List.nil_append]
        exact ih others fun _ second isSecond => next second isSecond rfl
      have done : finished text = [text] := by simp [finished, spoken]
      rw [writtenPath, WrittenSegment.write, List.append_assoc, plainSegments_pending flushed, own, done]
      rfl
    | bracketed text =>
      have own : bracketSegments [] (text ++ ']' :: writtenPath segments after) =
          some (text :: textsOf segments) := by
        simp [bracketSegments_eq, Text.splitOnce_append fits, ih others, finished]
      have spelled : writtenPath ((before, .bracketed text) :: segments) after =
          List.replicate before '.' ++ '[' :: (text ++ ']' :: writtenPath segments after) := by
        simp [writtenPath, WrittenSegment.write]
      rw [spelled, plainSegments_opening, own]
      rfl

-- One more point in front of all segments, or behind none of them.
theorem exists_pointed (isWritten : WellWritten written) (after : Nat) :
    ∃ segments count, WellWritten segments ∧ textsOf segments = textsOf written ∧
      '.' :: writtenPath written after = writtenPath segments count ∧
      ∀ second ∈ segments.head?, second.2.isPlain = true → 0 < second.1 := by
  cases written with
  | nil => exact ⟨[], after + 1, wellWritten_nil, rfl, rfl, by simp⟩
  | cons first written =>
    obtain ⟨before, segment⟩ := first
    obtain ⟨fits, next, others⟩ := wellWritten_cons.1 isWritten
    exact ⟨(before + 1, segment) :: written, after, wellWritten_cons.2 ⟨fits, next, others⟩, rfl,
      rfl, by simp⟩

-- A plain segment, if there is one, in front of all others.
theorem exists_begun (isWritten : WellWritten written) (noPoint : '.' ∉ current)
    (noBracket : '[' ∉ current) (after : Nat)
    (apart : ∀ second ∈ written.head?, second.2.isPlain = true → 0 < second.1) :
    ∃ segments, WellWritten segments ∧ textsOf segments = finished current ++ textsOf written ∧
      current ++ writtenPath written after = writtenPath segments after := by
  by_cases silent : current = []
  · exact ⟨written, isWritten, by simp [silent, finished], by simp [silent]⟩
  · refine ⟨(0, .plain current) :: written, ?_, ?_, rfl⟩
    · exact wellWritten_cons.2 ⟨⟨silent, noPoint, noBracket⟩, fun second isSecond _ =>
        apart second isSecond, isWritten⟩
    · simp [textsOf, finished, silent, WrittenSegment.text]

theorem exists_written (text current : List Char) {segments : List (List Char)}
    (noPoint : '.' ∉ current) (noBracket : '[' ∉ current)
    (read : plainSegments current text = some segments) :
    ∃ written after, WellWritten written ∧ current ++ text = writtenPath written after ∧
      segments = textsOf written := by
  match text with
  | [] =>
    obtain ⟨written, isWritten, texts, spelled⟩ :=
      exists_begun wellWritten_nil noPoint noBracket 0 (by simp)
    refine ⟨written, 0, isWritten, spelled, ?_⟩
    rw [texts, ← Option.some.inj read]
    simp [textsOf]
  | c :: rest =>
    rw [plainSegments] at read
    split_ifs at read with isPoint isBracket
    · obtain ⟨others, found, rfl⟩ := Option.map_eq_some_iff.1 read
      obtain ⟨written, after, isWritten, same, rfl⟩ :=
        exists_written rest [] (by simp) (by simp) found
      obtain ⟨pointed, count, isPointed, texts, spelled, apart⟩ := exists_pointed isWritten after
      obtain ⟨begun, isBegun, all, whole⟩ := exists_begun isPointed noPoint noBracket count apart
      refine ⟨begun, count, isBegun, ?_, by rw [all, texts]⟩
      rw [← whole, ← spelled, ← same, isPoint, List.nil_append]
    · obtain ⟨others, found, rfl⟩ := Option.map_eq_some_iff.1 read
      rw [bracketSegments_eq, Option.bind_eq_some_iff] at found
      obtain ⟨⟨inner, behind⟩, cut, own⟩ := found
      obtain ⟨rfl, ends⟩ := Text.eq_of_splitOnce cut
      obtain ⟨further, found, rfl⟩ := Option.map_eq_some_iff.1 own
      obtain ⟨written, after, isWritten, same, rfl⟩ :=
        exists_written behind [] (by simp) (by simp) found
      have bracketed : WellWritten ((0, .bracketed inner) :: written) :=
        wellWritten_cons.2 ⟨ends, by simp [WrittenSegment.isPlain], isWritten⟩
      obtain ⟨begun, isBegun, all, whole⟩ := exists_begun bracketed noPoint noBracket after
        (by simp [WrittenSegment.isPlain])
      refine ⟨begun, after, isBegun, ?_, all.symm⟩
      simp [← whole, writtenPath, WrittenSegment.write, isBracket, ← same]
    · obtain ⟨written, after, isWritten, same, rfl⟩ := exists_written rest (current ++ [c])
        (by simp [noPoint, Ne.symm isPoint]) (by simp [noBracket, Ne.symm isBracket]) read
      exact ⟨written, after, isWritten, by simpa using same, rfl⟩
termination_by text.length

theorem opensForGood_cons (other : c ≠ '[') : OpensForGood (c :: rest) ↔ OpensForGood rest := by
  constructor
  · rintro ⟨_ | ⟨d, before⟩, after, same, closed, ends⟩
    · exact absurd (List.cons.inj same).1 other
    · obtain ⟨rfl, rfl⟩ := List.cons.inj same
      cases closed with
      | char _ closed => exact ⟨before, after, rfl, closed, ends⟩
      | bracket => exact absurd rfl other
  · rintro ⟨before, after, rfl, closed, ends⟩
    exact ⟨c :: before, after, rfl, .char other closed, ends⟩

theorem opensForGood_bracket : OpensForGood ('[' :: text) ↔
    ∀ parts ∈ Text.splitOnce ']' text, OpensForGood parts.2 := by
  constructor
  · rintro ⟨before, after, same, closed, unclosed⟩ ⟨inner, behind⟩ cut
    cases closed with
    | nil =>
      obtain rfl : text = after := (List.cons.inj same).2
      simp [Text.splitOnce_eq_none.2 unclosed] at cut
    | char other => exact absurd (List.cons.inj same).1.symm other
    | @bracket own rest ends closed =>
      obtain rfl : text = own ++ ']' :: (rest ++ '[' :: after) := by simpa using same
      obtain ⟨-, rfl⟩ : own = inner ∧ rest ++ '[' :: after = behind := by
        simpa [Text.splitOnce_append ends] using cut
      exact ⟨rest, after, rfl, closed, unclosed⟩
  · intro later
    cases cut : Text.splitOnce ']' text with
    | none => exact ⟨[], text, rfl, .nil, Text.splitOnce_eq_none.1 cut⟩
    | some parts =>
      obtain ⟨inner, behind⟩ := parts
      obtain ⟨rfl, ends⟩ := Text.eq_of_splitOnce cut
      obtain ⟨rest, after, rfl, closed, unclosed⟩ := later (inner, behind) cut
      exact ⟨'[' :: inner ++ ']' :: rest, after, by simp, .bracket ends closed, unclosed⟩

theorem plainSegments_eq_none_iff (text current : List Char) :
    plainSegments current text = none ↔ OpensForGood text := by
  match text with
  | [] => simp [plainSegments, OpensForGood]
  | c :: rest =>
    rw [plainSegments]
    split_ifs with isPoint isBracket
    · rw [Option.map_eq_none_iff, plainSegments_eq_none_iff rest, isPoint,
        opensForGood_cons (by decide)]
    · rw [Option.map_eq_none_iff, isBracket, opensForGood_bracket, bracketSegments_eq]
      cases cut : Text.splitOnce ']' rest with
      | none => simp
      | some parts =>
        obtain ⟨inner, behind⟩ := parts
        have shorter : behind.length < rest.length := by
          simp [(Text.eq_of_splitOnce cut).1]
          omega
        simp [plainSegments_eq_none_iff behind]
    · rw [plainSegments_eq_none_iff rest, opensForGood_cons isBracket]
termination_by text.length

theorem plainSegments_eq_nil_iff : plainSegments [] text = some [] ↔ ∀ c ∈ text, c = '.' := by
  constructor
  · intro read
    obtain ⟨written, after, -, spelled, texts⟩ := exists_written text [] (by simp) (by simp) read
    obtain rfl : written = [] := List.map_eq_nil_iff.1 texts.symm
    obtain rfl : text = List.replicate after '.' := spelled
    exact fun c => List.eq_of_mem_replicate
  · intro points
    rw [List.eq_replicate_of_mem points]
    simpa [plainSegments, finished] using plainSegments_points text.length []

structure Bare (text : List Char) : Prop where
  first : ∀ c ∈ text.head?, isBlank c = false ∧ isQuote c = false
  last : ∀ c ∈ text.getLast?, isBlank c = false ∧ isQuote c = false

/-- What a fault says of a text that neither blanks nor quotes surround. -/
def KeyPathFault.Blames (text : List Char) : KeyPathFault → Prop
  | .empty => text = []
  | .noSegments path => text ≠ [] ∧ (∀ c ∈ text, c = '.') ∧ path = String.ofList text
  | .unclosed path => OpensForGood text ∧ path = String.ofList text

theorem isBlank_of_isQuote (quote : isQuote c = true) : isBlank c = false := by
  obtain rfl | rfl : c = '\'' ∨ c = '"' := by simpa [isQuote] using quote
  · decide
  · decide

theorem bareKeyPath_wrapped {before opening closing after : List Char} (bare : Bare text)
    (starts : Text.AllBlank before) (opens : ∀ c ∈ opening, isQuote c = true)
    (closes : ∀ c ∈ closing, isQuote c = true) (ends : Text.AllBlank after) :
    bareKeyPath (before ++ (opening ++ text ++ closing) ++ after) = text := by
  have own : Text.Trimmed text :=
    ⟨fun c found => (bare.first c found).1, fun c found => (bare.last c found).1⟩
  have quoted : Text.Trimmed (opening ++ text ++ closing) :=
    ((Text.trimmed_of_dark fun c member => isBlank_of_isQuote (opens c member)).append own).append
      (Text.trimmed_of_dark fun c member => isBlank_of_isQuote (closes c member))
  have trimmed : Text.trim (before ++ (opening ++ text ++ closing) ++ after) =
      opening ++ text ++ closing := Text.trimWhere_between starts ends quoted.first quoted.last
  rw [bareKeyPath, trimmed]
  exact Text.trimWhere_between opens closes (fun c found => (bare.first c found).2)
    fun c found => (bare.last c found).2

theorem splitKeyPath_eq_ok_iff {path : String} {segments : List String} :
    splitKeyPath path = .ok segments ↔ ∃ texts, texts ≠ [] ∧
      plainSegments [] (bareKeyPath path.toList) = some texts ∧
      segments = texts.map String.ofList := by
  have nothing : plainSegments [] [] = some [] := rfl
  rw [splitKeyPath]
  cases bare : bareKeyPath path.toList with
  | nil => simp [nothing]
  | cons c rest =>
    rcases plainSegments [] (c :: rest) with _ | (_ | ⟨first, others⟩)
    · simp
    · simp
    · simp [eq_comm]

theorem blames_iff {fault : KeyPathFault} (nonempty : text ≠ []) : fault.Blames text ↔
    (plainSegments [] text = none ∧ fault = .unclosed (String.ofList text)) ∨
      (plainSegments [] text = some [] ∧ fault = .noSegments (String.ofList text)) := by
  rw [plainSegments_eq_none_iff, plainSegments_eq_nil_iff]
  cases fault <;> simp [KeyPathFault.Blames, nonempty]

theorem splitKeyPath_eq_error_iff {path : String} {fault : KeyPathFault} :
    splitKeyPath path = .error fault ↔ fault.Blames (bareKeyPath path.toList) := by
  rw [splitKeyPath]
  cases bare : bareKeyPath path.toList with
  | nil => cases fault <;> simp [KeyPathFault.Blames, OpensForGood]
  | cons c rest =>
    rw [blames_iff (List.cons_ne_nil c rest)]
    rcases plainSegments [] (c :: rest) with _ | (_ | ⟨first, others⟩)
    · simp [eq_comm]
    · simp [eq_comm]
    · simp

/-- A path is split into the segments that are written down in it, whatever quotes and blanks stand
around them, and no path is split otherwise; a path that cannot be split is, between the blanks and
quotes around it, empty or nothing but points, or opens a bracket for good. -/
theorem splitKeyPath_iff_written (path : String) :
    (∀ segments points before opening closing after,
      segments ≠ [] → WellWritten segments → Bare (writtenPath segments points) →
      Text.AllBlank before → (∀ c ∈ opening, isQuote c = true) →
      (∀ c ∈ closing, isQuote c = true) → Text.AllBlank after →
      path.toList = before ++ (opening ++ writtenPath segments points ++ closing) ++ after →
      splitKeyPath path = .ok ((textsOf segments).map String.ofList)) ∧
    (∀ segments, splitKeyPath path = .ok segments → ∃ written points,
      written ≠ [] ∧ WellWritten written ∧
      bareKeyPath path.toList = writtenPath written points ∧
      segments = (textsOf written).map String.ofList) ∧
    ((∃ fault, splitKeyPath path = .error fault) ↔
      bareKeyPath path.toList = [] ∨ (∀ c ∈ bareKeyPath path.toList, c = '.') ∨
      OpensForGood (bareKeyPath path.toList)) ∧
    ∀ fault, splitKeyPath path = .error fault ↔ fault.Blames (bareKeyPath path.toList) := by
  refine ⟨?_, ?_, ?_, fun fault => splitKeyPath_eq_error_iff⟩
  · intro segments points before opening closing after nonempty isWritten bare starts opens closes
      ends spelled
    have read : plainSegments [] (bareKeyPath path.toList) = some (textsOf segments) := by
      rw [spelled, bareKeyPath_wrapped bare starts opens closes ends]
      exact plainSegments_writtenPath isWritten points (absurd rfl)
    exact splitKeyPath_eq_ok_iff.2 ⟨_, by simpa [textsOf] using nonempty, read, rfl⟩
  · intro segments split
    obtain ⟨texts, nonempty, read, rfl⟩ := splitKeyPath_eq_ok_iff.1 split
    obtain ⟨written, points, isWritten, spelled, rfl⟩ :=
      exists_written _ [] (by simp) (by simp) read
    exact ⟨written, points, by simpa [textsOf] using nonempty, isWritten, spelled, rfl⟩
  · simp only [splitKeyPath_eq_error_iff]
    constructor
    · rintro ⟨fault, blames⟩
      cases fault with
      | empty => exact .inl blames
      | noSegments path => exact .inr (.inl blames.2.1)
      | unclosed path => exact .inr (.inr blames.1)
    · rintro (nothing | points | unclosed)
      · exact ⟨.empty, nothing⟩
      · by_cases nothing : bareKeyPath path.toList = []
        · exact ⟨.empty, nothing⟩
        · exact ⟨.noSegments _, nothing, points, rfl⟩
      · exact ⟨.unclosed _, unclosed, rfl⟩

def mixedSegments : List (Nat × WrittenSegment) :=
  [(0, .plain ['f', 'o', 'n', 't']), (2, .plain ['s', ']', '\'']), (0, .bracketed ['2', '.', '[']),
    (1, .bracketed [])]

theorem splitKeyPath_iff_written_mixedSegments :
    mixedSegments ≠ [] ∧ WellWritten mixedSegments ∧ Bare (writtenPath mixedSegments 3) ∧
      splitKeyPath " \"'font..s]'[2.[].[]...'\t" = .ok ["font", "s]'", "2.[", ""] := by
  have isWritten : WellWritten mixedSegments := by decide +kernel
  have first : (writtenPath mixedSegments 3).head? = some 'f' := by decide
  have last : (writtenPath mixedSegments 3).getLast? = some '.' := by decide
  have bare : Bare (writtenPath mixedSegments 3) := by
    refine ⟨?_, ?_⟩
    · simp only [first, Option.mem_some_iff, forall_eq']
      decide
    · simp only [last, Option.mem_some_iff, forall_eq']
      decide
  refine ⟨by decide, isWritten, bare, ?_⟩
  exact (splitKeyPath_iff_written _).1 mixedSegments 3 [' '] ['"', '\''] ['\''] ['\t'] (by decide)
    isWritten bare (by decide) (by simp [isQuote]) (by simp [isQuote]) (by decide) (by decide +kernel)

end UtilityCss.Theme
