set_option autoImplicit false

namespace UtilityCss.Text

def split (separator : Char) : List Char → List (List Char)
  | [] => [[]]
  | c :: rest =>
    if c = separator then [] :: split separator rest
    else match split separator rest with
      | [] => [[c]]
      | piece :: pieces => (c :: piece) :: pieces

def join (separator : List Char) : List (List Char) → List Char
  | [] => []
  | [piece] => piece
  | piece :: pieces => piece ++ separator ++ join separator pieces

theorem split_ne_nil (separator : Char) (text : List Char) : split separator text ≠ [] := by
  cases text with
  | nil => simp [split]
  | cons c rest =>
    by_cases same : c = separator
    · simp [split, same]
    · cases pieces : split separator rest <;> simp [split, same, pieces]

theorem split_join (separator : Char) (text : List Char) :
    join [separator] (split separator text) = text := by
  induction text with
  | nil => rfl
  | cons c rest ih =>
    cases pieces : split separator rest with
    | nil => exact absurd pieces (split_ne_nil separator rest)
    | cons piece pieces' =>
      rw [pieces] at ih
      by_cases same : c = separator
      · simp [split, same, pieces, join, ih]
      · cases pieces' <;> simpa [split, same, pieces, join] using ih

theorem not_mem_of_mem_split (separator : Char) (text : List Char) :
    ∀ piece ∈ split separator text, separator ∉ piece := by
  induction text with
  | nil => simp [split]
  | cons c rest ih =>
    by_cases same : c = separator
    · simpa [split, same] using ih
    · cases pieces : split separator rest with
      | nil => exact absurd pieces (split_ne_nil separator rest)
      | cons piece pieces' =>
        simp [pieces] at ih
        simp [split, same, pieces, ih, Ne.symm same]
        exact ih.2

def splitOnce (separator : Char) : List Char → Option (List Char × List Char)
  | [] => none
  | c :: rest =>
    if c = separator then some ([], rest)
    else (splitOnce separator rest).map fun (before, after) => (c :: before, after)

theorem eq_of_splitOnce {separator : Char} {text before after : List Char}
    (found : splitOnce separator text = some (before, after)) :
    text = before ++ separator :: after ∧ separator ∉ before := by
  induction text generalizing before with
  | nil => simp [splitOnce] at found
  | cons c rest ih =>
    by_cases same : c = separator
    · simp [splitOnce, same] at found
      simp [found.1, found.2, same]
    · simp only [splitOnce, same, if_false, Option.map_eq_some_iff] at found
      obtain ⟨⟨first, second⟩, inner, equal⟩ := found
      obtain ⟨rfl, rfl⟩ : c :: first = before ∧ second = after := by simpa using equal
      have ⟨joined, absent⟩ := ih inner
      exact ⟨by simp [joined], by simp [absent, Ne.symm same]⟩

def splitLast (separator : Char) (text : List Char) : Option (List Char × List Char) :=
  (splitOnce separator text.reverse).map fun (after, before) => (before.reverse, after.reverse)

def splitAtText (marker : List Char) : List Char → Option (List Char × List Char)
  | [] => if marker.isEmpty then some ([], []) else none
  | c :: rest =>
    match marker.isPrefixOf? (c :: rest) with
    | some after => some ([], after)
    | none => (splitAtText marker rest).map fun (before, after) => (c :: before, after)

theorem eq_of_isPrefixOf? {start text rest : List Char}
    (found : start.isPrefixOf? text = some rest) : text = start ++ rest := by
  induction start generalizing text with
  | nil =>
    have whole : some text = some rest := found
    simpa using whole
  | cons c start ih =>
    cases text with
    | nil => cases found
    | cons d text =>
      have inner : (if c == d then start.isPrefixOf? text else none) = some rest := found
      by_cases same : c = d
      · subst same
        simp only [beq_self_eq_true, if_true] at inner
        simp [ih inner]
      · simp [same] at inner

theorem eq_of_splitAtText {marker text before after : List Char}
    (found : splitAtText marker text = some (before, after)) :
    text = before ++ marker ++ after := by
  induction text generalizing before with
  | nil =>
    cases marker with
    | nil => simp [splitAtText] at found; simp [found.1, found.2]
    | cons c marker => simp [splitAtText] at found
  | cons c rest ih =>
    unfold splitAtText at found
    split at found
    · rename_i behind start
      obtain ⟨rfl, rfl⟩ : [] = before ∧ behind = after := by simpa using found
      simpa using eq_of_isPrefixOf? start
    · obtain ⟨⟨first, second⟩, inner, equal⟩ := Option.map_eq_some_iff.1 found
      obtain ⟨rfl, rfl⟩ : c :: first = before ∧ second = after := by simpa using equal
      simp [ih inner]

def dropEnd? (finish text : List Char) : Option (List Char) :=
  (finish.reverse.isPrefixOf? text.reverse).map List.reverse

/-- The lines of a text: what a line feed ends, less a carriage return before it. A last piece that
no line feed ends is a line if it is not empty, and keeps its carriage return. -/
def lines (text : List Char) : List (List Char) :=
  let pieces := split '\n' text
  let ended := pieces.dropLast.map fun piece => (dropEnd? ['\r'] piece).getD piece
  match pieces.getLast? with
  | some (c :: rest) => ended ++ [c :: rest]
  | _ => ended

end UtilityCss.Text
