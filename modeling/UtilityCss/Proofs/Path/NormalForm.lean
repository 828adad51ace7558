import UtilityCss.Proofs.Path.Join
import UtilityCss.Proofs.Path.Location
import UtilityCss.Proofs.Path.Order

set_option autoImplicit false

namespace UtilityCss.Path

open FileTree

variable {p q : Path} {text : String} {texts : List String} {absolute : Bool} {place : Location}

def relativeOf (texts : List String) : Path := ⟨"/".intercalate texts⟩

theorem toList_relativeOf (texts : List String) :
    (relativeOf texts).spelling.toList = ['/'].intercalate (texts.map String.toList) := by
  simp [relativeOf, String.toList_intercalate]

theorem split_relativeOf (steps : ∀ text ∈ texts, IsStep text) :
    Text.split '/' (relativeOf texts).spelling.toList =
      if texts = [] then [[]] else texts.map String.toList := by
  have free : ∀ piece ∈ texts.map String.toList, '/' ∉ piece :=
    List.forall_mem_map.2 fun text member => (steps text member).free
  rw [toList_relativeOf]
  split_ifs with empty
  · subst empty
    rfl
  · exact Text.split_intercalate (by simpa using empty) free

theorem pieces_relativeOf (steps : ∀ text ∈ texts, IsStep text) (nonempty : texts ≠ []) :
    (relativeOf texts).pieces = (none, texts.map String.toList) := by
  obtain ⟨first, rest, rfl⟩ := List.exists_cons_of_ne_nil nonempty
  have speaks := (steps first List.mem_cons_self).speaks
  rw [pieces, split_relativeOf steps, if_neg nonempty, List.map_cons]
  split
  · next same => exact absurd (.inl (List.cons.inj same).1) speaks
  · next same => exact absurd (.inr (List.cons.inj same).1) speaks
  · rfl

theorem components_relativeOf (steps : ∀ text ∈ texts, IsStep text) :
    (relativeOf texts).components = texts.map stepComponent := by
  by_cases empty : texts = []
  · subst empty
    rfl
  · simp only [components, pieces_relativeOf steps empty, Option.toList_none, List.nil_append]
    rw [List.filterMap_map, ← List.filterMap_eq_map]
    apply List.filterMap_congr
    intro text member
    exact pieceComponent_toList (steps text member)

theorem spelling_relativeOf_eq_empty (steps : ∀ text ∈ texts, IsStep text) :
    (relativeOf texts).spelling = "" ↔ texts = [] := by
  rw [← components_eq_nil, components_relativeOf steps, List.map_eq_nil_iff]

theorem toList_pathOf_relativeOf (texts : List String) :
    (pathOf texts).spelling.toList = '/' :: (relativeOf texts).spelling.toList := by
  rw [toList_pathOf, toList_relativeOf]

theorem child_relativeOf (steps : ∀ text ∈ texts, IsStep text) (step : IsStep text) :
    (relativeOf texts).child text = relativeOf (texts ++ [text]) := by
  by_cases empty : texts = []
  · subst empty
    rw [child, join, if_pos (.inr rfl)]
    simp [relativeOf]
  · have nonempty : (relativeOf texts).spelling ≠ "" :=
      fun none => empty ((spelling_relativeOf_eq_empty steps).1 none)
    have last : (relativeOf texts).spelling.toList.getLast? ≠ some '/' := by
      have slash := (ends_in_slash_iff steps).not.2 empty
      obtain ⟨c, rest, text⟩ := List.exists_cons_of_ne_nil
        (show (relativeOf texts).spelling.toList ≠ [] by simpa using nonempty)
      rw [toList_pathOf_relativeOf, text, List.getLast?_cons_cons] at slash
      rwa [text]
    have whole := toList_pathOf_concat texts text
    rw [if_neg empty, toList_pathOf_relativeOf, toList_pathOf_relativeOf, List.cons_append] at whole
    rw [child, join, if_neg (by simp [not_isAbsolute_of_step step, nonempty]), if_neg last]
    have same : (relativeOf texts).spelling ++ "/" ++ text =
        (relativeOf (texts ++ [text])).spelling := by
      rw [← String.toList_inj, (List.cons.inj whole).2]
      simp
    exact congrArg Path.mk same

theorem parent?_relativeOf (steps : ∀ text ∈ texts, IsStep text) (step : IsStep text) :
    (relativeOf (texts ++ [text])).parent? = some (relativeOf texts) := by
  have all : ∀ other ∈ texts ++ [text], IsStep other :=
    List.forall_mem_append.2 ⟨steps, List.forall_mem_singleton.2 step⟩
  have nonempty : ((texts ++ [text]).map String.toList).isEmpty = false := by simp
  simp only [parent?, pieces_relativeOf all (by simp), dropSilent_map all, nonempty]
  rw [List.map_append, List.map_singleton, List.dropLast_concat, dropSilent_map steps,
    Text.join_eq_intercalate, ← toList_relativeOf, String.ofList_toList]

def spelled (absolute : Bool) (texts : List String) : Path :=
  if absolute then pathOf texts else relativeOf texts

theorem components_spelled (steps : ∀ text ∈ texts, IsStep text) (absolute : Bool) :
    (spelled absolute texts).components =
      (if absolute then [.root] else []) ++ texts.map stepComponent := by
  cases absolute with
  | false => exact components_relativeOf steps
  | true => exact components_pathOf steps

theorem child_spelled (steps : ∀ text ∈ texts, IsStep text) (step : IsStep text)
    (absolute : Bool) : (spelled absolute texts).child text = spelled absolute (texts ++ [text]) := by
  cases absolute with
  | false => exact child_relativeOf steps step
  | true => exact child_pathOf steps step

theorem parent?_spelled (steps : ∀ text ∈ texts, IsStep text) (step : IsStep text)
    (absolute : Bool) :
    (spelled absolute (texts ++ [text])).parent? = some (spelled absolute texts) := by
  cases absolute with
  | false => exact parent?_relativeOf steps step
  | true => exact parent?_pathOf steps step

theorem parent?_spelled_nil (absolute : Bool) : (spelled absolute []).parent? = none := by
  cases absolute <;> rfl

theorem not_mem_map_stepComponent (texts : List String) :
    Component.root ∉ texts.map stepComponent := by
  intro member
  obtain ⟨text, -, same⟩ := List.mem_map.1 member
  unfold stepComponent at same
  split_ifs at same

theorem isAbsolute_spelled (steps : ∀ text ∈ texts, IsStep text) (absolute : Bool) :
    (spelled absolute texts).isAbsolute = absolute := by
  rw [Bool.eq_iff_iff, isAbsolute_iff, components_spelled steps]
  cases absolute <;> simp [not_mem_map_stepComponent]

/-- Where a path leads if its root is left out, so that also the steps up at the root are counted.
-/
def reading (p : Path) : Location :=
  (p.components.filter (· ≠ .root)).foldl Location.follow Location.start

structure IsReading (place : Location) : Prop where
  relative : place.absolute = false
  areNames : ∀ name ∈ place.names, IsName name

theorem isReading_start : IsReading Location.start := ⟨rfl, by simp [Location.start]⟩

def textsOf (place : Location) : List String :=
  List.replicate (place.stepsUp % 2) ".." ++ place.names

theorem IsReading.isStep (isReading : IsReading place) : ∀ text ∈ textsOf place, IsStep text := by
  refine List.forall_mem_append.2 ⟨fun text member => ?_, steps_of_names isReading.areNames⟩
  rw [(List.mem_replicate.1 member).2]
  exact isStep_up

-- A step up takes away what is last, be it a name or the step up that stands alone.
theorem normalStep_textsOf (isReading : IsReading place) (step : IsStep text) (absolute : Bool) :
    IsReading (place.follow (stepComponent text)) ∧
      normalStep (spelled absolute (textsOf place)) (stepComponent text) =
        spelled absolute (textsOf (place.follow (stepComponent text))) := by
  have isSpelled := isReading.isStep
  obtain ⟨isAbsolute, count, names⟩ := place
  obtain ⟨relative, areNames⟩ := isReading
  obtain rfl : isAbsolute = false := relative
  by_cases up : text = ".."
  · subst up
    have component : stepComponent ".." = .up := rfl
    rw [component, normalStep]
    rcases List.eq_nil_or_concat names with rfl | ⟨before, last, rfl⟩
    · have onward : Location.follow ⟨false, count, []⟩ .up = ⟨false, count + 1, []⟩ := rfl
      rw [onward]
      refine ⟨⟨rfl, areNames⟩, ?_⟩
      rcases Nat.mod_two_eq_zero_or_one count with even | odd
      · have next : (count + 1) % 2 = 1 := by omega
        simp only [textsOf, even, next, List.append_nil, List.replicate_zero, parent?_spelled_nil,
          Option.getD_none]
        exact child_spelled (by simp) isStep_up absolute
      · have next : (count + 1) % 2 = 0 := by omega
        simp only [textsOf, odd, next, List.append_nil, List.replicate_zero, List.replicate_one]
        rw [← List.nil_append [".."], parent?_spelled (by simp) isStep_up]
        rfl
    · rw [List.concat_eq_append] at areNames isSpelled ⊢
      have onward : Location.follow ⟨false, count, before ++ [last]⟩ .up =
          ⟨false, count, before⟩ := by simp [Location.follow]
      have whole : textsOf ⟨false, count, before ++ [last]⟩ =
          textsOf ⟨false, count, before⟩ ++ [last] := by simp [textsOf]
      rw [whole] at isSpelled ⊢
      obtain ⟨kept, own⟩ := List.forall_mem_append.1 isSpelled
      rw [onward, parent?_spelled kept (own last (by simp))]
      exact ⟨⟨rfl, (List.forall_mem_append.1 areNames).1⟩, rfl⟩
  · have component : stepComponent text = .name text := if_neg up
    have whole : textsOf ⟨false, count, names ++ [text]⟩ =
        textsOf ⟨false, count, names⟩ ++ [text] := by simp [textsOf]
    rw [component, normalStep, child_spelled isSpelled step, Location.follow, whole]
    exact ⟨⟨rfl, List.forall_mem_append.2 ⟨areNames, List.forall_mem_singleton.2 ⟨step, up⟩⟩⟩, rfl⟩

theorem foldl_normalStep_textsOf (isReading : IsReading place) (steps : ∀ text ∈ texts, IsStep text)
    (absolute : Bool) : IsReading ((texts.map stepComponent).foldl Location.follow place) ∧
      (texts.map stepComponent).foldl normalStep (spelled absolute (textsOf place)) =
        spelled absolute (textsOf ((texts.map stepComponent).foldl Location.follow place)) := by
  induction texts generalizing place with
  | nil => exact ⟨isReading, rfl⟩
  | cons text rest ih =>
    obtain ⟨step, others⟩ := List.forall_mem_cons.1 steps
    obtain ⟨further, same⟩ := normalStep_textsOf isReading step absolute
    rw [List.map_cons, List.foldl_cons, List.foldl_cons, same]
    exact ih further others

theorem names_follow (place : Location) (component : Component) :
    (place.follow component).names = onward place.names component := by
  cases component with
  | up =>
    obtain ⟨absolute, count, names⟩ := place
    cases names <;> cases absolute <;> simp [Location.follow]
  | _ => rfl

theorem names_foldl_follow (place : Location) (components : List Component) :
    (components.foldl Location.follow place).names = components.foldl onward place.names := by
  induction components generalizing place with
  | nil => rfl
  | cons component rest ih => rw [List.foldl_cons, ih, names_follow, List.foldl_cons]

theorem exists_reading (p : Path) : ∃ texts : List String,
    (∀ text ∈ texts, IsStep text ∧ text.toList ∈ Text.split '/' p.spelling.toList) ∧
    (Text.split '/' p.spelling.toList).filterMap pieceComponent = texts.map stepComponent ∧
    p.reading = (texts.map stepComponent).foldl Location.follow Location.start ∧
    p.normalize = (texts.map stepComponent).foldl normalStep
      (spelled p.isAbsolute (textsOf Location.start)) ∧
    p.location = (texts.map stepComponent).foldl Location.follow ⟨p.isAbsolute, 0, []⟩ := by
  obtain ⟨texts, steps, same⟩ := exists_steps (Text.not_mem_of_mem_split '/' p.spelling.toList)
  have parts := components_eq p
  rw [same] at parts
  have behind := not_mem_map_stepComponent texts
  have all : (texts.map stepComponent).filter (· ≠ .root) = texts.map stepComponent :=
    List.filter_eq_self.2 fun component member =>
      decide_eq_true (ne_of_mem_of_not_mem member behind)
  refine ⟨texts, steps, same, ?_⟩
  rw [reading, Path.normalize, location]
  rcases startOf_cases (Text.split '/' p.spelling.toList) with start | start | start
  all_goals rw [start] at parts
  · have relative : p.isAbsolute = false := by
      rw [← Bool.not_eq_true, isAbsolute_iff, parts]
      simpa using behind
    rw [parts, relative, List.filter_append, all]
    exact ⟨rfl, rfl, rfl⟩
  · have absolute : p.isAbsolute = true := by
      rw [isAbsolute_iff, parts]
      exact List.mem_cons_self
    rw [parts, absolute, List.filter_append, all]
    exact ⟨rfl, rfl, rfl⟩
  · have relative : p.isAbsolute = false := by
      rw [← Bool.not_eq_true, isAbsolute_iff, parts]
      simpa using behind
    rw [parts, relative, List.filter_append, all]
    exact ⟨rfl, rfl, rfl⟩

theorem isReading_reading (p : Path) : IsReading p.reading := by
  obtain ⟨texts, steps, -, same, -⟩ := exists_reading p
  exact same ▸ (foldl_normalStep_textsOf isReading_start (fun text member => (steps text member).1)
    false).1

theorem normalize_eq (p : Path) : p.normalize = spelled p.isAbsolute (textsOf p.reading) := by
  obtain ⟨texts, steps, -, same, normal, -⟩ := exists_reading p
  rw [normal, same]
  exact (foldl_normalStep_textsOf isReading_start (fun text member => (steps text member).1)
    p.isAbsolute).2

theorem location_eq (p : Path) : p.location =
    ⟨p.isAbsolute, if p.isAbsolute then 0 else p.reading.stepsUp, p.reading.names⟩ := by
  obtain ⟨texts, -, -, same, -, place⟩ := exists_reading p
  have relative := (isReading_reading p).relative
  rw [place]
  rw [same] at relative ⊢
  cases p.isAbsolute with
  | false => exact congrArg (fun absolute => Location.mk absolute _ _) relative
  | true =>
    rw [foldl_follow, names_foldl_follow]
    rfl

theorem foldl_follow_names (areNames : ∀ name ∈ texts, IsName name) (place : Location) :
    (texts.map stepComponent).foldl Location.follow place =
      { place with names := place.names ++ texts } := by
  induction texts generalizing place with
  | nil => simp
  | cons name rest ih =>
    obtain ⟨isName, others⟩ := List.forall_mem_cons.1 areNames
    rw [List.map_cons, List.foldl_cons, isName.component, Location.follow, ih others]
    simp

theorem reading_spelled (steps : ∀ text ∈ texts, IsStep text) (absolute : Bool) :
    (spelled absolute texts).reading =
      (texts.map stepComponent).foldl Location.follow Location.start := by
  have behind := not_mem_map_stepComponent texts
  rw [reading, components_spelled steps, List.filter_append, List.filter_eq_self.2
    fun component member => decide_eq_true (ne_of_mem_of_not_mem member behind)]
  cases absolute <;> rfl

theorem reading_textsOf (isReading : IsReading place) (absolute : Bool) :
    (spelled absolute (textsOf place)).reading = { place with stepsUp := place.stepsUp % 2 } := by
  have ups : ((List.replicate (place.stepsUp % 2) "..").map stepComponent).foldl Location.follow
      Location.start = ⟨false, place.stepsUp % 2, []⟩ := by
    rcases Nat.mod_two_eq_zero_or_one place.stepsUp with even | odd
    · rw [even]
      rfl
    · rw [odd]
      rfl
  rw [reading_spelled isReading.isStep, textsOf, List.map_append, List.foldl_append, ups,
    foldl_follow_names isReading.areNames, List.nil_append, ← isReading.relative]

theorem isAbsolute_normalForm (p : Path) : p.normalize.isAbsolute = p.isAbsolute := by
  rw [normalize_eq, isAbsolute_spelled (isReading_reading p).isStep]

theorem isAbsolute_of_same {p q : Path} (same : p.same q) (absolute : q.isAbsolute = true) :
    p.isAbsolute = true := by
  rw [isAbsolute_iff] at absolute ⊢
  rwa [same_iff.1 same]

theorem normalize_eq_of_same_right {p q : Path} (absolute : q.isAbsolute = true)
    (same : q.normalize.same p.normalize) : p.normalize = q.normalize := by
  have normal := isAbsolute_normalize absolute
  have also := isAbsolute_of_same (same_comm.1 same) normal
  rw [isAbsolute_normalForm] at also
  exact normalize_eq_of_same also absolute (same_comm.1 same)

theorem reading_normalize (p : Path) :
    p.normalize.reading = { p.reading with stepsUp := p.reading.stepsUp % 2 } := by
  rw [normalize_eq, reading_textsOf (isReading_reading p)]

theorem normalize_normalize (p : Path) : p.normalize.normalize = p.normalize := by
  rw [normalize_eq p.normalize, isAbsolute_normalForm, reading_normalize, normalize_eq p, textsOf,
    textsOf, Nat.mod_mod]

/-- Normalising keeps where a path leads but for the number of steps up, of which it keeps whether
it is odd. Two paths have the same normal form if they lead to the same place in this sense, where
the steps up at the root count as well. A second time it changes nothing. -/
theorem normalize_keeps_place (p q : Path) :
    p.normalize.location = { p.location with stepsUp := p.location.stepsUp % 2 } ∧
      (p.normalize.location = p.location ↔ p.location.stepsUp ≤ 1) ∧
      (p.normalize = q.normalize ↔ p.location.absolute = q.location.absolute ∧
        p.location.names = q.location.names ∧
          p.reading.stepsUp % 2 = q.reading.stepsUp % 2) ∧
      p.normalize.normalize = p.normalize := by
  have place : p.normalize.location = { p.location with stepsUp := p.location.stepsUp % 2 } := by
    rw [location_eq, location_eq, isAbsolute_normalForm, reading_normalize]
    split_ifs <;> rfl
  refine ⟨place, ?_, ?_, ?_⟩
  · rw [place]
    constructor
    · intro same
      have count : p.location.stepsUp % 2 = p.location.stepsUp := congrArg Location.stepsUp same
      omega
    · intro few
      rw [Nat.mod_eq_of_lt (by omega)]
  · rw [location_eq p, location_eq q]
    constructor
    · intro same
      have isAbsolute := congrArg Path.isAbsolute same
      have reads := congrArg Path.reading same
      rw [reading_normalize, reading_normalize, Location.mk.injEq] at reads
      rw [isAbsolute_normalForm, isAbsolute_normalForm] at isAbsolute
      exact ⟨isAbsolute, reads.2.2, reads.2.1⟩
    · rintro ⟨isAbsolute, names, counts⟩
      rw [normalize_eq, normalize_eq]
      simp only [textsOf] at isAbsolute names ⊢
      rw [isAbsolute, names, counts]
  · exact normalize_normalize p

-- The second step up takes the first one away, and at the root it comes to stand behind the root.
example : normalize ⟨"../.."⟩ = ⟨""⟩ ∧ normalize ⟨"/.."⟩ = ⟨"/.."⟩ := by decide +kernel

end UtilityCss.Path
