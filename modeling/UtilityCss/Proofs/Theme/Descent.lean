import Mathlib.Data.List.Perm.Subperm
import UtilityCss.Proofs.Theme.Settling

set_option autoImplicit false

namespace UtilityCss.Theme

open UtilityCss.Config

namespace Basis

variable (r : Basis)

/-- The value that the layers give a key, with the answers for the keys that it refers to. -/
def descend (ofKey : String → Step (Option Value)) (key : String) : Step (Option Value) :=
  fun memory =>
    match memory.progress? key with
    | some (.finished value) => (.ok value, memory)
    | some .entered => (.error (.circularReference (memory.chain ++ [key])), memory)
    | none =>
      let (result, after) :=
        mergeSections (r.valueAtPath ofKey) key r.sections none (memory.enter key)
      (result, after.leave key result)

/-- The values of keys in order, with the answers for the keys of the layers. -/
def collectBy (ofKey : String → Step (Option Value)) : List String → Step (Table Value)
  | [] => fun memory => (.ok [], memory)
  | key :: rest => fun memory =>
    match r.segmentValue ofKey key memory with
    | (.error error, memory) => (.error error, memory)
    | (.ok value, memory) =>
      match collectBy ofKey rest memory with
      | (.error error, memory) => (.error error, memory)
      | (.ok values, memory) =>
        (.ok (match value with
          | some value => (key, value) :: values
          | none => values), memory)

variable {r} {m : Memory} {key other segment path : String} {depth : Nat}
  {ofKey also : String → Step (Option Value)}

theorem valueOfKey_eq_descend (depth : Nat) :
    r.valueOfKey (depth + 1) = r.descend (r.valueOfKey depth) := by
  funext key m
  rw [valueOfKey]
  rfl

theorem collect_eq_collectBy (keys : List String) :
    r.collect keys = r.collectBy (r.valueOfKey r.depth) keys := by
  induction keys with
  | nil => rfl
  | cons key rest ih =>
    funext m
    rw [collect, collectBy, ih]
    rfl

theorem segmentValue_congr
    (same : ∀ key, r.layerKey? segment = some key → ofKey key m = also key m) :
    r.segmentValue ofKey segment m = r.segmentValue also segment m := by
  unfold segmentValue
  rcases configKey?_cases r segment m with isKey | ⟨key, -, -, -, skipped⟩
  · cases read : r.layerKey? segment with
    | none => rw [isKey, read]
    | some key =>
      rw [isKey, read]
      dsimp only
      rw [same key read]
  · rw [skipped]

theorem valueAtPath_congr
    (same : ∀ key, r.readKey? path = some key → ofKey key m = also key m) :
    r.valueAtPath ofKey path m = r.valueAtPath also path m := by
  unfold valueAtPath
  cases split : splitKeyPath path with
  | error fault => rfl
  | ok segments =>
    cases segments with
    | nil => rfl
    | cons first rest =>
      have isFirst : firstSegment? path = some first := by simp [firstSegment?, split]
      rw [readKey?_of_first isFirst] at same
      dsimp only
      rw [segmentValue_congr same]

structure Returns (r : Basis) (m : Memory)
    (outcome : Except SettingsError (Option Value) × Memory) : Prop where
  tracks : r.Tracks outcome.2
  chain : outcome.2.chain = m.chain

theorem Shows.returns {outcome : Except SettingsError (Option Value) × Memory}
    (shows : r.Shows m path outcome) : r.Returns m outcome := ⟨shows.tracks, shows.grows.chain⟩

theorem run_congr {α : Type} {kind : String → Prop} {chain : List String}
    {asked answered : String → Step (Option Value)}
    (same : ∀ path, kind path → ∀ m, r.Tracks m → m.chain = chain →
      r.Returns m (asked path m) ∧ asked path m = answered path m)
    (plan : Plan α) (refers : plan.Refers kind) (tracks : r.Tracks m) (isChain : m.chain = chain) :
    plan.run asked m = plan.run answered m := by
  induction plan generalizing m with
  | done value => rfl
  | fail error => rfl
  | ask path next ih =>
    obtain ⟨isKind, ends, -, goes⟩ := refers
    obtain ⟨returns, equal⟩ := same path isKind m tracks isChain
    simp only [Plan.run, ← equal]
    cases (asked path m).1 with
    | error error =>
      rw [ends]
      rfl
    | ok value => exact ih _ (goes value) returns.tracks (returns.chain.trans isChain)

-- A question of a key links the key at the end of the chain to the one that it asks for.
theorem reads_from_last {last : String} {chain : List String} (inside : path ∈ r.pathsOf key)
    (read : r.readKey? path = some other) (isLast : last ∈ (chain ++ [key]).getLast?) :
    r.Reads last other := by
  rw [List.getLast?_concat] at isLast
  exact Option.some.inj isLast ▸ ⟨path, inside, read⟩

-- Inside a key all questions come from its own settings.
theorem shows_inside (only : r.OnlyReferences) (depth : Nat) {chain : List String}
    (inside : path ∈ r.pathsOf key) (tracks : r.Tracks m) (isChain : m.chain = chain ++ [key]) :
    r.Shows m path (r.valueAtPath (r.valueOfKey depth) path m) :=
  valueAtPath_shows tracks fun other read =>
    valueOfKey_resolves only depth other (readKey?_mem read) m tracks fun _ isLast =>
      reads_from_last inside read (isChain ▸ isLast)

theorem Tracks.length_le (tracks : r.Tracks m) : m.chain.length ≤ r.configKeys.length :=
  (List.subperm_of_subset tracks.valid.nodup tracks.configured).length_le

def AnswersWithin (r : Basis) (ofKey : String → Step (Option Value)) (depth : Nat) : Prop :=
  ∀ key ∈ r.configKeys, ∀ m, r.Tracks m → (∀ last ∈ m.chain.getLast?, r.Reads last key) →
    r.configKeys.length < m.chain.length + depth → r.valueOfKey depth key m = ofKey key m

theorem AnswersWithin.zero (floor : String → Step (Option Value)) : r.AnswersWithin floor 0 := by
  intro key configured m tracks linked deep
  have bound := tracks.length_le
  omega

theorem AnswersWithin.succ (only : r.OnlyReferences) (answers : r.AnswersWithin ofKey depth) :
    r.AnswersWithin (r.descend ofKey) (depth + 1) := by
  intro key configured m tracks linked deep
  rw [valueOfKey_eq_descend]
  unfold descend
  rcases known : m.progress? key with _ | ⟨_ | value⟩
  · have inside : (r.planOf key).run (r.valueAtPath (r.valueOfKey depth)) (m.enter key) =
        (r.planOf key).run (r.valueAtPath ofKey) (m.enter key) := by
      refine run_congr (fun path inside middle still isChain => ?_) _ (only.planOf key)
        (tracks.enter known configured linked) rfl
      rw [Memory.chain_enter] at isChain
      refine ⟨(shows_inside only depth inside still isChain).returns,
        valueAtPath_congr fun other read => answers other (readKey?_mem read) middle still
          (fun _ isLast => reads_from_last inside read (isChain ▸ isLast)) ?_⟩
      rw [isChain, List.length_append, List.length_singleton]
      omega
    dsimp only
    rw [mergeSections_eq, mergeSections_eq]
    rw [planOf] at inside
    rw [inside]
  · rfl
  · rfl

theorem answersWithin_iterate (only : r.OnlyReferences) (floor : String → Step (Option Value))
    (depth : Nat) : r.AnswersWithin (r.descend^[depth] floor) depth := by
  induction depth with
  | zero => exact .zero floor
  | succ depth ih =>
    rw [Function.iterate_succ_apply']
    exact ih.succ only

theorem collectBy_congr (only : r.OnlyReferences) (answers : r.AnswersWithin ofKey r.depth)
    (keys : List String) (tracks : r.Tracks m) (idle : m.chain = []) :
    r.collect keys m = r.collectBy ofKey keys m := by
  rw [collect_eq_collectBy]
  induction keys generalizing m with
  | nil => rfl
  | cons key rest ih =>
    have same : r.segmentValue (r.valueOfKey r.depth) key m = r.segmentValue ofKey key m :=
      segmentValue_congr fun other read => answers other (layerKey?_mem read) m tracks
        (by simp [idle]) (by simp [idle, depth])
    obtain ⟨tracked, grown, -⟩ := segmentValue_shows key tracks fun other read =>
      valueOfKey_resolves only r.depth other (layerKey?_mem read) m tracks (by simp [idle])
    simp only [collectBy, ← same]
    rcases found : r.segmentValue (r.valueOfKey r.depth) key m with ⟨error | value, middle⟩
    · rfl
    · rw [found] at tracked grown
      have later := ih tracked (grown.chain.trans idle)
      dsimp only at later ⊢
      rw [later]

end Basis

end UtilityCss.Theme
