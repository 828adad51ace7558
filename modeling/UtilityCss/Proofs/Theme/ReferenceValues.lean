import UtilityCss.Proofs.Theme.Outcome

set_option autoImplicit false

namespace UtilityCss.Theme

open UtilityCss.Config
open Relation

namespace Basis

variable (r : Basis)

/-- The value at the path in a theme. A namespace stands for its key, unless the layers have a key
of its own name. -/
def valueIn (theme : Theme) (path : String) : Option Value :=
  match splitKeyPath path with
  | .ok (first :: rest) =>
    (Table.get? (if first ∈ r.configKeys then first else keyOf first) theme.entries).bind
      (follow rest)
  | _ => none

def tokensAt (path : String) : Option Value := r.shown [] path

/-- What a reference evaluates to under a key, when the settled keys are listed in the order in
which they were finished, the last one first. -/
def evaluated (settled : Table (Option Value)) (key path : String) : Option Value :=
  r.shown (Table.behind key settled) path

/-- The path reads the layers of a key that was not finished before another one. -/
def Late (settled : Table (Option Value)) (key path : String) : Prop :=
  ∃ other, r.readKey? path = some other ∧ Table.get? other (Table.behind key settled) = none

variable {r} {settled : Table (Option Value)} {m : Memory} {theme : Theme} {key path : String}
  {value : Option Value}

theorem shown_of_missing {known : Table (Option Value)} {other : String}
    (read : r.readKey? path = some other) (missing : Table.get? other known = none) :
    r.shown known path = r.tokensAt path :=
  shown_congr fun segment first => shownSegment_congr fun next layers => by
    rw [readKey?_of_first first] at read
    obtain rfl := Option.some.inj (read.symm.trans layers)
    rw [missing, Table.get?]

theorem Leaves.valueIn_eq (leaves : r.Leaves m theme) (path : String) :
    r.valueIn theme path = r.shown m.settled path := by
  rcases split : splitKeyPath path with fault | ⟨_ | ⟨first, rest⟩⟩
  · simp [shown, valueIn, split]
  · simp [shown, valueIn, split]
  · suffices same : Table.get? (if first ∈ r.configKeys then first else keyOf first) theme.entries =
        r.shownSegment m.settled first by simp [shown, valueIn, split, same]
    by_cases configured : first ∈ r.configKeys
    · rw [if_pos configured, leaves.get?_eq (.inl configured)]
    · rw [if_neg configured, leaves.get?_eq (.inr (isAliased_keyOf first))]
      cases aliased : isAliased first with
      | false => rw [isAliased_eq_false.1 aliased]
      | true =>
        -- A namespace and its key show the same tokens and read the same layers.
        have layers : r.layerKey? (keyOf first) = r.layerKey? first := by
          simp [layerKey?, configured, aliased, isAliased_keyOf]
        rw [shownSegment, shownSegment, tokenTable?_keyOf r aliased, layers]

theorem evaluated_of_late (late : r.Late settled key path) :
    r.evaluated settled key path = r.tokensAt path := by
  obtain ⟨other, read, missing⟩ := late
  exact shown_of_missing read missing

theorem Leaves.evaluated_of_not_late (leaves : r.Leaves m theme)
    (early : ¬ r.Late m.settled key path) :
    r.evaluated m.settled key path = r.valueIn theme path := by
  rw [leaves.valueIn_eq]
  refine shown_congr fun segment first => shownSegment_congr fun other layers => ?_
  have read := (readKey?_of_first first).trans layers
  have listed : (Table.get? other (Table.behind key m.settled)).isSome := by
    rw [Option.isSome_iff_ne_none]
    exact fun missing => early ⟨other, read, missing⟩
  rw [Table.get?_of_behind (Memory.distinct_settled leaves.tracks.valid) listed]

theorem Leaves.raw_of_late (leaves : r.Leaves m theme) (configured : key ∈ r.configKeys)
    (member : path ∈ r.pathsOf key) (late : r.Late m.settled key path) :
    r.IsRaw path ∧ ∃ other, r.readKey? path = some other ∧ ReflTransGen r.Reads other key := by
  obtain ⟨value, found⟩ := Option.isSome_iff_exists.1 (leaves.complete key configured)
  obtain ⟨other, read, missing⟩ := late
  rcases (leaves.tracks.settled.answered leaves.only found).2 path member other read with
    listed | ⟨raw, leads⟩
  · simp [missing] at listed
  · exact ⟨raw, other, read, leads⟩

theorem Leaves.folded (leaves : r.Leaves m theme) (configured : key ∈ r.configKeys) :
    ∃ value, folded? (r.evaluated m.settled key) key r.sections none = some value ∧
      Table.get? key theme.entries = Value.overlay? (r.tokenTable? key) value := by
  obtain ⟨value, found⟩ := Option.isSome_iff_exists.1 (leaves.complete key configured)
  refine ⟨value, ?_, ?_⟩
  · have answered := (leaves.tracks.settled.answered leaves.only found).1
    rw [← toOption_answered_ofSections _ (leaves.only key) none]
    exact congrArg Except.toOption answered
  · rw [leaves.get?_eq (.inl configured), shownSegment, layerKey?_self configured,
      Option.bind_some, found, Option.join_some]

theorem Leaves.evaluated_eq_iff (leaves : r.Leaves m theme) (first second path : String) :
    r.evaluated m.settled first path = r.evaluated m.settled second path ↔
      (r.Late m.settled first path ↔ r.Late m.settled second path) ∨
        r.valueIn theme path = r.tokensAt path := by
  by_cases early : r.Late m.settled first path <;> by_cases late : r.Late m.settled second path
  · simp [evaluated_of_late early, evaluated_of_late late, early, late]
  · rw [evaluated_of_late early, leaves.evaluated_of_not_late late, eq_comm]
    simp [early, late]
  · rw [evaluated_of_late late, leaves.evaluated_of_not_late early]
    simp [early, late]
  · simp [leaves.evaluated_of_not_late early, leaves.evaluated_of_not_late late, early, late]

end Basis

/-- Every reference evaluates to the value of the theme at its path or, when it is late, to what the
tokens show there. References to one path agree exactly when both of them are late or neither is, or
when it makes no difference. -/
theorem references_agree_iff {tokens : Tokens} {stack : Stack} {theme : Theme}
    (references : ∀ layer ∈ stack, layer.config.Refers fun _ => True)
    (resolved : ofTokens tokens stack = .ok theme) :
    ∃ r, Basis.ofLayers tokens stack = .ok r ∧
      ∃ settled, (r.collect r.keys Memory.empty).2.settled = settled ∧
      (∀ key ∈ r.configKeys, ∃ value,
        folded? (r.evaluated settled key) key r.sections none = some value ∧
          Table.get? key theme.entries = Value.overlay? (r.tokenTable? key) value) ∧
      (∀ key path, r.Late settled key path → r.evaluated settled key path = r.tokensAt path) ∧
      (∀ key path, ¬ r.Late settled key path →
        r.evaluated settled key path = r.valueIn theme path) ∧
      (∀ key ∈ r.configKeys, ∀ path ∈ r.pathsOf key, r.Late settled key path →
        r.IsRaw path ∧ ∃ other, r.readKey? path = some other ∧
          ReflTransGen r.Reads other key) ∧
      ∀ first second path, r.evaluated settled first path = r.evaluated settled second path ↔
        (r.Late settled first path ↔ r.Late settled second path) ∨
          r.valueIn theme path = r.tokensAt path := by
  obtain ⟨r, isBasis, leaves⟩ := Basis.leaves_of_resolved references resolved
  exact ⟨r, isBasis, _, rfl, fun _ => leaves.folded, fun _ _ => Basis.evaluated_of_late,
    fun _ _ => leaves.evaluated_of_not_late, fun _ inside _ => leaves.raw_of_late inside,
    leaves.evaluated_eq_iff⟩

def revisited : Stack :=
  [.ofTheme [("colors", .table [("a", .deferred (.reference "zeta")), ("red", .ofText "crimson")]),
    ("zeta", .deferred (.reference "color.red")), ("zz", .deferred (.reference "color.red"))]]

def evaluatedTexts (tokens : Tokens) (stack : Stack) (path : String) (keys : List String) :
    Option (List (Option String)) :=
  (Basis.ofLayers tokens stack).toOption.map fun r => keys.map fun key =>
    (r.evaluated (r.collect r.keys Memory.empty).2.settled key path).bind Value.text?

theorem references_disagree :
    (∀ layer ∈ revisited, layer.config.Refers fun _ => True) ∧
      (ofTokens ⟨[("--color-red", "red")]⟩ revisited).isOk ∧
      evaluatedTexts ⟨[("--color-red", "red")]⟩ revisited "color.red" ["zeta", "zz"] =
        some [some "red", some "crimson"] ∧
      ∃ r, Basis.ofLayers ⟨[("--color-red", "red")]⟩ revisited = .ok r ∧
        ¬ (r.Late (r.collect r.keys Memory.empty).2.settled "zeta" "color.red" ↔
          r.Late (r.collect r.keys Memory.empty).2.settled "zz" "color.red") := by
  have references : ∀ layer ∈ revisited, layer.config.Refers fun _ => True := by
    simp [revisited, Layer.ofTheme, Setting.Refers, Setting.deferredValues,
      Setting.deferredEntries, Setting.ofText]
  have resolves : (ofTokens ⟨[("--color-red", "red")]⟩ revisited).isOk := by decide +kernel
  have texts : evaluatedTexts ⟨[("--color-red", "red")]⟩ revisited "color.red" ["zeta", "zz"] =
      some [some "red", some "crimson"] := by decide +kernel
  obtain ⟨theme, resolved⟩ := exists_of_isOk resolves
  obtain ⟨r, isBasis, settled, rfl, -, -, -, -, agree⟩ := references_agree_iff references resolved
  refine ⟨references, resolves, texts, r, isBasis, ?_⟩
  intro both
  have same := (agree "zeta" "zz" "color.red").2 (.inl both)
  rw [evaluatedTexts, isBasis] at texts
  have pair := Option.some.inj texts
  simp only [List.map_cons, List.map_nil, same, List.cons.injEq] at pair
  exact absurd (pair.1.symm.trans pair.2.1) (by decide)

end UtilityCss.Theme
