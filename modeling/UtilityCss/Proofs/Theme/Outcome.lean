import Mathlib.Data.List.Perm.Subperm
import UtilityCss.Proofs.Result
import UtilityCss.Proofs.Theme.Names
import UtilityCss.Proofs.Theme.Sections
import UtilityCss.Proofs.Theme.Settling

set_option autoImplicit false

namespace UtilityCss.Theme

open UtilityCss.Config
open Relation

def Plain (path : String) : Prop :=
  ∀ segment, firstSegment? path = some segment → isAliased segment = false

theorem plain_of_first {path segment : String} (first : firstSegment? path = some segment)
    (plain : isAliased segment = false) : Plain path := by
  intro other isFirst
  exact Option.some.inj (first.symm.trans isFirst) ▸ plain

theorem ofTokens_eq_ok {tokens : Tokens} {stack : Stack} {theme : Theme}
    (resolved : ofTokens tokens stack = .ok theme) :
    ∃ r, Basis.ofLayers tokens stack = .ok r ∧
      (r.collect r.keys Memory.empty).1 = .ok theme.entries := by
  unfold ofTokens at resolved
  cases layers : Basis.ofLayers tokens stack with
  | error error => simp [layers] at resolved
  | ok r =>
    rw [layers] at resolved
    obtain ⟨values, entries, rfl⟩ := map_eq_ok.1 resolved
    exact ⟨r, rfl, entries⟩

namespace Basis

variable {r : Basis} {m : Memory} {theme : Theme} {known : Table (Option Value)}
  {key segment path : String} {value : Option Value}

theorem layerKey?_self (configured : key ∈ r.configKeys) : r.layerKey? key = some key := by
  simp [layerKey?, configured]

theorem eq_of_layerKey? (plain : isAliased segment = false)
    (read : r.layerKey? segment = some key) : segment = key := by
  unfold layerKey? at read
  split_ifs at read with configured aliased
  · exact Option.some.inj read
  · simp [plain] at aliased

theorem not_raw_of_plain (plain : Plain path) : ¬ r.IsRaw path := by
  rintro ⟨segment, key, first, read, raw⟩
  exact raw (eq_of_layerKey? (plain segment first) read)

theorem plain_of_stack {tokens : Tokens} {stack : Stack}
    (found : ofLayers tokens stack = .ok r) (plain : ∀ layer ∈ stack, layer.config.Refers Plain)
    (key : String) : ∀ path ∈ r.pathsOf key, Plain path := by
  intro path member
  obtain ⟨setting, isSetting, inside⟩ := List.mem_flatMap.1 member
  exact (refers_of_stack found plain key setting isSetting).path inside

theorem shownSegment_of_unread (unread : r.layerKey? segment = none) :
    r.shownSegment known segment = r.tokenTable? segment := by
  rw [shownSegment, unread, Option.bind_none, overlay?_none]

theorem shownSegment_of_not_mem (plain : isAliased segment = false) (absent : segment ∉ r.keys) :
    r.shownSegment known segment = none := by
  have unread : r.layerKey? segment = none := by
    have unconfigured : segment ∉ r.configKeys := fun inside =>
      absent (mem_keys_of_mem_configKeys inside)
    simp [layerKey?, unconfigured, plain]
  rw [shownSegment_of_unread unread, ← Option.not_isSome_iff_eq_none]
  exact fun tokens => absent (mem_keys_of_tokenTable? plain tokens)

theorem Settled.configured (settled : r.Settled known) :
    ∀ key value, Table.get? key known = some value → key ∈ r.configKeys := by
  induction settled with
  | nil => simp [Table.get?]
  | @cons first last known rest configured fresh folded reads ih =>
    intro key value found
    by_cases same : key = first
    · exact same ▸ configured
    · rw [Table.get?, if_neg same] at found
      exact ih key value found

theorem Settled.answered (settled : r.Settled known) (only : r.OnlyReferences)
    (found : Table.get? key known = some value) :
    (r.planOf key).answered (r.shown (Table.behind key known)) = .ok value ∧
      ∀ path ∈ r.pathsOf key, ∀ other, r.readKey? path = some other →
        (Table.get? other (Table.behind key known)).isSome ∨
          r.IsRaw path ∧ ReflTransGen r.Reads other key := by
  induction settled with
  | nil => simp [Table.get?] at found
  | @cons first last known rest configured fresh folded reads ih =>
    -- The entries behind a key are the state in which it was settled.
    by_cases same : key = first
    · obtain rfl : last = value := by simpa [Table.get?, same] using found
      subst same
      rw [Table.behind, if_pos rfl]
      refine ⟨folded, fun path member => reads path ?_⟩
      rwa [planOf, Plan.asked_ofSections (only key) folded]
    · rw [Table.get?, if_neg same] at found
      rw [Table.behind, if_neg same]
      exact ih found

theorem Settled.behind (settled : r.Settled known) (key : String) :
    r.Settled (Table.behind key known) := by
  induction settled with
  | nil => exact .nil
  | @cons first last known rest configured fresh folded reads ih =>
    rw [Table.behind]
    split_ifs
    · exact rest
    · exact ih

theorem length_settled_le (tracks : r.Tracks m) : m.settled.length ≤ r.configKeys.length := by
  have distinct := Memory.distinct_settled tracks.valid
  have inside : m.settled.map Prod.fst ⊆ r.configKeys := fun key member => by
    obtain ⟨value, found⟩ := Option.isSome_iff_exists.1 (Table.get?_isSome_iff.2 member)
    exact tracks.settled.configured key value found
  simpa using (List.subperm_of_subset distinct inside).length_le

theorem listed_of_decides (valid : m.Valid) (idle : m.chain = [])
    (decides : r.DecidesSegment m segment) (read : r.layerKey? segment = some key) :
    (Table.get? key m.settled).isSome := by
  rcases decides key read with ⟨value, known⟩ | ⟨-, entered⟩
  · rw [(Memory.get?_settled valid).2 known]
    rfl
  · have member := (valid.entered key).1 entered
    simp [idle] at member

structure Leaves (r : Basis) (m : Memory) (theme : Theme) : Prop where
  only : r.OnlyReferences
  tracks : r.Tracks m
  complete : ∀ key ∈ r.configKeys, (Table.get? key m.settled).isSome
  shows : ∀ key, Table.get? key theme.entries =
    if key ∈ r.keys then r.shownSegment m.settled key else none

theorem Leaves.get?_eq (leaves : r.Leaves m theme)
    (known : segment ∈ r.configKeys ∨ isAliased segment = false) :
    Table.get? segment theme.entries = r.shownSegment m.settled segment := by
  rw [leaves.shows]
  split_ifs with member
  · rfl
  · rcases known with configured | plain
    · exact absurd (mem_keys_of_mem_configKeys configured) member
    · exact (shownSegment_of_not_mem plain member).symm

theorem leaves_of_resolved {tokens : Tokens} {stack : Stack}
    (references : ∀ layer ∈ stack, layer.config.Refers fun _ => True)
    (resolved : ofTokens tokens stack = .ok theme) :
    ∃ r, ofLayers tokens stack = .ok r ∧ r.Leaves (r.collect r.keys Memory.empty).2 theme := by
  obtain ⟨r, isBasis, collected⟩ := ofTokens_eq_ok resolved
  have only : r.OnlyReferences := refers_of_stack isBasis references
  obtain ⟨tracks, grows, shows⟩ := collect_shows only r.keys (tracks_empty r) rfl
  obtain ⟨entries, decides⟩ := shows theme.entries collected
  refine ⟨r, isBasis, only, tracks, fun key configured => ?_, fun key => ?_⟩
  · exact listed_of_decides tracks.valid grows.chain
      (decides key (mem_keys_of_mem_configKeys configured)) (layerKey?_self configured)
  · rw [entries, Table.get?_filterMap_keys]

end Basis

def textsAt (tokens : Tokens) (stack : Stack) (paths : List String) :
    Option (List (Option String)) :=
  (ofTokens tokens stack).toOption.map fun theme =>
    paths.map fun path => (theme.get? path).bind Value.text?

theorem exists_of_textsAt {tokens : Tokens} {stack : Stack} {paths : List String}
    {texts : List (Option String)} (found : textsAt tokens stack paths = some texts) :
    ∃ theme, ofTokens tokens stack = .ok theme ∧
      paths.map (fun path => (theme.get? path).bind Value.text?) = texts := by
  unfold textsAt at found
  cases resolved : ofTokens tokens stack with
  | error error => simp [resolved, Except.toOption] at found
  | ok theme =>
    rw [resolved] at found
    exact ⟨theme, rfl, Option.some.inj found⟩

end UtilityCss.Theme
