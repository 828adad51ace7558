import UtilityCss.Proofs.Stylesheet.Statements

set_option autoImplicit false

namespace UtilityCss

namespace Text

variable {mark : List Char} {c : Char}

theorem isPrefixOf?_append (absent : c ∉ mark) (start rest : List Char) :
    mark.isPrefixOf? (start ++ c :: rest) = (mark.isPrefixOf? start).map (· ++ c :: rest) := by
  induction mark generalizing start with
  | nil => cases start <;> rfl
  | cons d mark ih =>
    rw [List.mem_cons, not_or] at absent
    cases start with
    | nil =>
      have other : (d == c) = false := by simpa using Ne.symm absent.1
      simp [List.isPrefixOf?, other]
    | cons e start =>
      rw [List.cons_append, List.isPrefixOf?, List.isPrefixOf?, ih absent.2]
      split <;> rfl

-- Lines differ from the pieces between line feeds in a last empty one and in carriage returns.
theorem any_lines {test : List Char → Bool} (empty : test [] = false)
    (back : ∀ line, test (line ++ ['\r']) = test line) (text : List Char) :
    (lines text).any test = (split '\n' text).any test := by
  have dropped (piece : List Char) : test ((dropEnd? ['\r'] piece).getD piece) = test piece := by
    cases found : dropEnd? ['\r'] piece with
    | none => rfl
    | some start => rw [eq_of_dropEnd? found, back, Option.getD_some]
  obtain ⟨ended, last, pieces⟩ : ∃ ended last, split '\n' text = ended ++ [last] :=
    ⟨_, _, (List.dropLast_append_getLast (split_ne_nil '\n' text)).symm⟩
  cases last with
  | nil => simp [lines, pieces, Function.comp_def, dropped, empty]
  | cons c last => simp [lines, pieces, Function.comp_def, dropped]

end Text

namespace Stylesheet

variable {c : Char} {begins : Bool} {start text rest blanks : List Char}

def startsEngineName (text : List Char) : Bool :=
  let target := Text.trimStart text
  namesEngine (match urlStart.isPrefixOf? target with
    | some inner => Text.trimStart inner
    | none => target)

theorem startsEngineImport_eq (text : List Char) : startsEngineImport text =
    match importMark.isPrefixOf? (Text.trimStart text) with
    | some (c :: rest) => isBlank c && startsEngineName rest
    | _ => false := rfl

structure EndsName (c : Char) : Prop where
  part : isPartChar c = false
  quote : isQuoteMark c = false

theorem isPartChar_of_mem_engineName (member : c ∈ engineName) : isPartChar c = true := by
  simp only [engineName, List.mem_cons, List.not_mem_nil, or_false] at member
  rcases member with rfl | rfl | rfl | rfl | rfl | rfl | rfl | rfl | rfl <;> decide

theorem EndsName.not_mem_engineName (ends : EndsName c) : c ∉ engineName := by
  intro member
  have part := isPartChar_of_mem_engineName member
  rw [ends.part] at part
  cases part

def closesName : List Char → Bool
  | '/' :: part => ((part.dropWhile isPartChar).head?.map isQuoteMark).getD false
  | mark :: _ => isQuoteMark mark
  | [] => false

theorem namesEngine_cons (d : Char) (text : List Char) : namesEngine (d :: text) =
    (isQuoteMark d && ((engineName.isPrefixOf? text).map closesName).getD false) := by
  simp only [namesEngine]
  cases isQuoteMark d with
  | false => rfl
  | true =>
    cases engineName.isPrefixOf? text with
    | none => rfl
    | some behind =>
      cases behind with
      | nil => rfl
      | cons e behind =>
        by_cases slash : e = '/'
        · subst slash
          rfl
        · simp only [Option.map_some, Option.getD_some, Bool.true_and]
          unfold closesName
          split <;> simp_all

theorem closesName_append (ends : EndsName c) (start rest : List Char) :
    closesName (start ++ c :: rest) = closesName start := by
  have slash : c ≠ '/' := by
    rintro rfl
    cases ends.part
  cases start with
  | nil =>
    have plain : closesName (c :: rest) = isQuoteMark c := by
      unfold closesName
      split <;> simp_all
    rw [List.nil_append, plain, ends.quote]
    rfl
  | cons d start =>
    by_cases part : d = '/'
    · subst part
      rw [List.cons_append, closesName, closesName, List.dropWhile_append]
      split_ifs with whole
      · rw [List.isEmpty_iff.1 whole, List.dropWhile_cons_of_neg (by simp [ends.part])]
        simp [ends.quote]
      · obtain ⟨e, more, behind⟩ :=
          List.exists_cons_of_ne_nil (fun empty => whole (List.isEmpty_iff.2 empty))
        rw [behind]
        rfl
    · have plain (text : List Char) : closesName (d :: text) = isQuoteMark d := by
        unfold closesName
        split <;> simp_all
      rw [List.cons_append, plain, plain]

theorem namesEngine_append (ends : EndsName c) (start rest : List Char) :
    namesEngine (start ++ c :: rest) = namesEngine start := by
  cases start with
  | nil =>
    rw [List.nil_append, namesEngine_cons, ends.quote]
    rfl
  | cons d start =>
    rw [List.cons_append, namesEngine_cons, namesEngine_cons,
      Text.isPrefixOf?_append ends.not_mem_engineName]
    cases engineName.isPrefixOf? start with
    | none => rfl
    | some behind =>
      simp only [Option.map_some, Option.getD_some]
      rw [closesName_append ends]

theorem isAlphanum_of_blank (blank : isBlank c = true) : c.isAlphanum = false := by
  simp only [isBlank, blankRanges, List.any_cons, List.any_nil, Bool.or_false, Bool.or_eq_true,
    Bool.and_eq_true, decide_eq_true_eq] at blank
  rw [Bool.eq_false_iff, ne_eq, isAlphanum_iff]
  omega

theorem endsName_of_blank (blank : isBlank c = true) : EndsName c where
  part := by
    have other {d : Char} (dark : isBlank d = false) : c ≠ d := isBlank_ne blank dark
    simp [isPartChar, isAlphanum_of_blank blank, other (by decide : isBlank '_' = false),
      other (by decide : isBlank '.' = false), other (by decide : isBlank '-' = false),
      other (by decide : isBlank '/' = false)]
  quote := by
    simp [isQuoteMark, isBlank_ne blank (by decide : isBlank '"' = false),
      isBlank_ne blank (by decide : isBlank '\'' = false)]

theorem not_mem_of_dark {mark : List Char} (dark : mark.any isBlank = false)
    (blank : isBlank c = true) : c ∉ mark := fun member =>
  List.any_eq_false.1 dark c member blank

theorem not_mem_urlStart (blank : isBlank c = true) : c ∉ urlStart :=
  not_mem_of_dark (by decide) blank

theorem not_mem_importMark (blank : isBlank c = true) : c ∉ importMark :=
  not_mem_of_dark (by decide) blank

structure IsWall (c : Char) : Prop extends EndsName c where
  dark : isBlank c = false
  mark : c ∉ importMark
  url : c ∉ urlStart

theorem isWall_semicolon : IsWall ';' := by
  refine ⟨⟨?_, ?_⟩, ?_, ?_, ?_⟩ <;> decide

theorem isWall_brace : IsWall '\x7d' := by
  refine ⟨⟨?_, ?_⟩, ?_, ?_, ?_⟩ <;> decide

theorem startsEngineName_blank_append (blank : Text.AllBlank blanks) (text : List Char) :
    startsEngineName (blanks ++ text) = startsEngineName text := by
  rw [startsEngineName, startsEngineName, Text.trimStart_blank_append blank]

theorem startsEngineName_of_blank (blank : Text.AllBlank blanks) :
    startsEngineName blanks = false := by
  rw [startsEngineName, Text.trimStart_of_blank blank]
  rfl

theorem startsEngineName_wall (wall : IsWall c) (start rest : List Char) :
    startsEngineName (start ++ c :: rest) = startsEngineName start := by
  simp only [startsEngineName, Text.trimStart_append_dark wall.dark,
    Text.isPrefixOf?_append wall.url]
  cases urlStart.isPrefixOf? (Text.trimStart start) with
  | none => exact namesEngine_append wall.toEndsName _ _
  | some inner =>
    simp only [Option.map_some, Text.trimStart_append_dark wall.dark]
    exact namesEngine_append wall.toEndsName _ _

-- The name may stand behind the start of a call of `url` or not.
theorem namesEngine_of_startsEngineName (other : startsEngineName text = false) :
    namesEngine (Text.trimStart text) = false := by
  rw [startsEngineName] at other
  split at other
  · next inner call =>
    rw [Text.eq_of_isPrefixOf? call]
    rfl
  · exact other

theorem startsEngineName_append (blank : isBlank c = true) (start : List Char)
    (other : startsEngineName rest = false) :
    startsEngineName (start ++ c :: rest) = startsEngineName start := by
  have ends := endsName_of_blank blank
  have one : Text.AllBlank [c] := List.forall_mem_singleton.2 blank
  by_cases silent : Text.AllBlank start
  · rw [startsEngineName_blank_append silent, startsEngineName_of_blank silent,
      ← List.singleton_append, startsEngineName_blank_append one, other]
  · simp only [startsEngineName, Text.trimStart_append_of_not_blank silent,
      Text.isPrefixOf?_append (not_mem_urlStart blank)]
    cases urlStart.isPrefixOf? (Text.trimStart start) with
    | none => exact namesEngine_append ends _ _
    | some inner =>
      simp only [Option.map_some]
      by_cases empty : Text.AllBlank inner
      · rw [Text.trimStart_blank_append empty, ← List.singleton_append,
          Text.trimStart_blank_append one, namesEngine_of_startsEngineName other,
          Text.trimStart_of_blank empty]
        rfl
      · rw [Text.trimStart_append_of_not_blank empty, namesEngine_append ends]

theorem startsEngineImport_blank_append (blank : Text.AllBlank blanks) (text : List Char) :
    startsEngineImport (blanks ++ text) = startsEngineImport text := by
  rw [startsEngineImport_eq, startsEngineImport_eq, Text.trimStart_blank_append blank]

theorem startsEngineImport_of_blank (blank : Text.AllBlank blanks) :
    startsEngineImport blanks = false := by
  rw [startsEngineImport_eq, Text.trimStart_of_blank blank]
  rfl

theorem startsEngineImport_wall (wall : IsWall c) (start rest : List Char) :
    startsEngineImport (start ++ c :: rest) = startsEngineImport start := by
  rw [startsEngineImport_eq, startsEngineImport_eq, Text.trimStart_append_dark wall.dark,
    Text.isPrefixOf?_append wall.mark]
  cases importMark.isPrefixOf? (Text.trimStart start) with
  | none => rfl
  | some behind =>
    cases behind with
    | nil => simp [wall.dark]
    | cons d behind => simp [startsEngineName_wall wall]

theorem startsEngineImport_append (blank : isBlank c = true) (spoken : ¬ Text.AllBlank start)
    (other : startsEngineName rest = false) :
    startsEngineImport (start ++ c :: rest) = startsEngineImport start := by
  rw [startsEngineImport_eq, startsEngineImport_eq, Text.trimStart_append_of_not_blank spoken,
    Text.isPrefixOf?_append (not_mem_importMark blank)]
  cases importMark.isPrefixOf? (Text.trimStart start) with
  | none => rfl
  | some behind =>
    cases behind with
    | nil => simp [other]
    | cons d behind => simp [startsEngineName_append blank behind other]

theorem engineImportWithin_cons (begins : Bool) (c : Char) (rest : List Char) :
    engineImportWithin begins (c :: rest) = ((begins && startsEngineImport (c :: rest)) ||
      engineImportWithin (c = '\n' || c = ';') rest) := rfl

theorem engineImportWithin_true (text : List Char) :
    engineImportWithin true text = (startsEngineImport text || engineImportWithin false text) := by
  cases text with
  | nil => rfl
  | cons c rest => simp [engineImportWithin_cons]

theorem engineImportWithin_of_starts (starts : startsEngineImport text = false) (begins : Bool) :
    engineImportWithin begins text = engineImportWithin false text := by
  cases begins with
  | false => rfl
  | true => rw [engineImportWithin_true, starts, Bool.false_or]

theorem engineImportWithin_blank_append (blank : Text.AllBlank blanks) (text : List Char) :
    engineImportWithin true (blanks ++ text) = engineImportWithin true text := by
  induction blanks with
  | nil => rfl
  | cons c blanks ih =>
    obtain ⟨-, others⟩ := Text.allBlank_cons.1 blank
    have absorbed : (startsEngineImport (blanks ++ text) ||
        engineImportWithin (c = '\n' || c = ';') (blanks ++ text)) =
          engineImportWithin true (blanks ++ text) := by
      rw [engineImportWithin_true]
      cases decide (c = '\n') || decide (c = ';') with
      | false => rfl
      | true => rw [engineImportWithin_true, ← Bool.or_assoc, Bool.or_self]
    rw [List.cons_append, engineImportWithin_cons, Bool.true_and, ← List.cons_append,
      startsEngineImport_blank_append blank, ← startsEngineImport_blank_append others, absorbed,
      ih others]

theorem engineImportWithin_wall (wall : IsWall c) (begins : Bool) (start rest : List Char) :
    engineImportWithin begins (start ++ c :: rest) = (engineImportWithin begins start ||
      engineImportWithin (c = '\n' || c = ';') rest) := by
  induction start generalizing begins with
  | nil =>
    have starts := startsEngineImport_wall wall [] rest
    rw [List.nil_append] at starts ⊢
    rw [engineImportWithin_cons, starts]
    cases begins <;> rfl
  | cons d start ih =>
    rw [List.cons_append, engineImportWithin_cons, engineImportWithin_cons, ih, ← List.cons_append,
      startsEngineImport_wall wall, Bool.or_assoc]

theorem engineImportWithin_newline (other : startsEngineName rest = false) (begins : Bool)
    (start : List Char) : engineImportWithin begins (start ++ '\n' :: rest) =
      (engineImportWithin begins start || engineImportWithin true rest) := by
  have feed : isBlank '\n' = true := by decide
  have blankStart (blanks : List Char) (blank : Text.AllBlank blanks) :
      startsEngineImport (blanks ++ '\n' :: rest) = startsEngineImport rest := by
    rw [← List.singleton_append, ← List.append_assoc]
    exact startsEngineImport_blank_append (blank.append (List.forall_mem_singleton.2 feed)) rest
  -- Behind the break an import counts anyhow.
  have absorbed (found : Bool) : (found && startsEngineImport rest || engineImportWithin true rest) =
      engineImportWithin true rest := by
    cases found with
    | false => rfl
    | true => rw [engineImportWithin_true, ← Bool.or_assoc, Bool.true_and, Bool.or_self]
  induction start generalizing begins with
  | nil =>
    have starts := blankStart [] (by simp [Text.AllBlank])
    rw [List.nil_append] at starts ⊢
    rw [engineImportWithin_cons, starts]
    exact absorbed begins
  | cons d start ih =>
    rw [List.cons_append, engineImportWithin_cons, engineImportWithin_cons, ih, ← List.cons_append]
    by_cases silent : Text.AllBlank (d :: start)
    · rw [blankStart _ silent, startsEngineImport_of_blank silent, Bool.and_false, Bool.false_or,
        Bool.or_left_comm, absorbed]
    · rw [startsEngineImport_append feed silent other, Bool.or_assoc]

theorem startsEngineName_append_blank (blank : Text.AllBlank blanks) (text : List Char) :
    startsEngineName (text ++ blanks) = startsEngineName text := by
  cases blanks with
  | nil => rw [List.append_nil]
  | cons c blanks =>
    obtain ⟨first, others⟩ := Text.allBlank_cons.1 blank
    exact startsEngineName_append first text (startsEngineName_of_blank others)

theorem startsEngineImport_append_blank (blank : Text.AllBlank blanks) (text : List Char) :
    startsEngineImport (text ++ blanks) = startsEngineImport text := by
  by_cases silent : Text.AllBlank text
  · rw [startsEngineImport_of_blank silent, startsEngineImport_of_blank (silent.append blank)]
  · cases blanks with
    | nil => rw [List.append_nil]
    | cons c blanks =>
      obtain ⟨first, others⟩ := Text.allBlank_cons.1 blank
      exact startsEngineImport_append first silent (startsEngineName_of_blank others)

theorem engineImportWithin_append_blank (blank : Text.AllBlank blanks) (begins : Bool)
    (text : List Char) :
    engineImportWithin begins (text ++ blanks) = engineImportWithin begins text := by
  induction text generalizing begins with
  | nil =>
    rw [List.nil_append, engineImportWithin]
    induction blanks generalizing begins with
    | nil => rfl
    | cons c blanks ih =>
      rw [engineImportWithin_cons, startsEngineImport_of_blank blank, Bool.and_false,
        Bool.false_or, ih (Text.allBlank_cons.1 blank).2]
  | cons c text ih =>
    rw [List.cons_append, engineImportWithin_cons, engineImportWithin_cons, ih, ← List.cons_append,
      startsEngineImport_append_blank blank]

theorem startsEngineName_trim (text : List Char) :
    startsEngineName (Text.trim text) = startsEngineName text := by
  obtain ⟨before, after, blank, blankAfter, joined⟩ := Text.exists_trim text
  conv_rhs => rw [joined, startsEngineName_append_blank blankAfter,
    startsEngineName_blank_append blank]

theorem engineImportWithin_trim (text : List Char) :
    engineImportWithin true (Text.trim text) = engineImportWithin true text := by
  obtain ⟨before, after, blank, blankAfter, joined⟩ := Text.exists_trim text
  conv_rhs => rw [joined, engineImportWithin_append_blank blankAfter,
    engineImportWithin_blank_append blank]

def Ended (pieces : List (List Char)) : Prop :=
  pieces.Pairwise fun piece _ => piece.getLast? = some ';'

theorem ended_of_isSplit {state : Splitter} {pieces : List (List Char)}
    (parted : Splitter.IsSplit state pieces) : Ended pieces := by
  induction parted with
  | nil => exact .nil
  | whole whole _ ih => exact .cons (fun _ _ => Splitter.last_of_endsWith whole) ih
  | last _ _ => exact List.pairwise_singleton _ _

theorem ended_statementsOf (line : List Char) : Ended (statementsOf line) :=
  ended_of_isSplit (Splitter.isSplit_split Splitter.start line)

variable {pieces lines : List (List Char)}

theorem Ended.cases {piece : List Char} (ended : Ended (piece :: pieces)) :
    Ended pieces ∧ (pieces = [] ∨ ∃ inner, piece = inner ++ [';']) := by
  obtain ⟨first, others⟩ := List.pairwise_cons.1 ended
  refine ⟨others, ?_⟩
  cases pieces with
  | nil => exact .inl rfl
  | cons next pieces =>
    exact .inr (List.getLast?_eq_some_iff.1 (first next List.mem_cons_self))

theorem engineImportWithin_flatten (ended : Ended pieces) :
    engineImportWithin true pieces.flatten = pieces.any (engineImportWithin true) := by
  induction pieces with
  | nil => rfl
  | cons piece pieces ih =>
    obtain ⟨others, rfl | ⟨inner, rfl⟩⟩ := ended.cases
    · simp
    · have alone := engineImportWithin_wall isWall_semicolon true inner []
      have both := engineImportWithin_wall isWall_semicolon true inner pieces.flatten
      rw [List.flatten_cons, List.append_assoc, List.singleton_append, both, List.any_cons, alone,
        ← ih others]
      simp [engineImportWithin]

theorem startsEngineName_flatten (ended : Ended pieces)
    (other : ∀ piece ∈ pieces, startsEngineName piece = false) :
    startsEngineName pieces.flatten = false := by
  cases pieces with
  | nil => rfl
  | cons piece pieces =>
    have first := other piece List.mem_cons_self
    obtain ⟨-, rfl | ⟨inner, rfl⟩⟩ := ended.cases
    · rwa [List.flatten_singleton]
    · rw [startsEngineName_wall isWall_semicolon] at first
      rw [List.flatten_cons, List.append_assoc, List.singleton_append,
        startsEngineName_wall isWall_semicolon, first]

theorem startsEngineName_join (other : ∀ line ∈ lines, startsEngineName line = false) :
    startsEngineName (Text.join ['\n'] lines) = false := by
  fun_induction Text.join ['\n'] lines with
  | case1 => rfl
  | case2 line => exact other line List.mem_cons_self
  | case3 line lines _ ih =>
    obtain ⟨first, others⟩ := List.forall_mem_cons.1 other
    rw [List.append_assoc, List.singleton_append, startsEngineName_append (by decide) _ (ih others),
      first]

theorem engineImportWithin_join (other : ∀ line ∈ lines, startsEngineName line = false) :
    engineImportWithin true (Text.join ['\n'] lines) = lines.any (engineImportWithin true) := by
  fun_induction Text.join ['\n'] lines with
  | case1 => rfl
  | case2 line => simp
  | case3 line lines _ ih =>
    obtain ⟨first, others⟩ := List.forall_mem_cons.1 other
    rw [List.append_assoc, List.singleton_append,
      engineImportWithin_newline (startsEngineName_join others), ih others, List.any_cons]

theorem startsEngineName_lines {text : List Char}
    (other : ∀ line ∈ Text.lines text, startsEngineName line = false) :
    ∀ piece ∈ Text.split '\n' text, startsEngineName piece = false := by
  have blank : Text.AllBlank ['\r'] := by simp [Text.AllBlank]; decide
  have same := Text.any_lines rfl (startsEngineName_append_blank blank) text
  rw [List.any_eq_false.2 (by simpa using other)] at same
  simpa using List.any_eq_false.1 same.symm

theorem engineImportWithin_lines {text : List Char}
    (other : ∀ line ∈ Text.lines text, startsEngineName line = false) :
    engineImportWithin true text = (Text.lines text).any (engineImportWithin true) := by
  have blank : Text.AllBlank ['\r'] := by simp [Text.AllBlank]; decide
  rw [Text.any_lines rfl (engineImportWithin_append_blank blank true) text,
    ← engineImportWithin_join (startsEngineName_lines other), Text.split_join]

end Stylesheet

end UtilityCss
