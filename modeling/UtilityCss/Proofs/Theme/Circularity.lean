import UtilityCss.Proofs.Theme.Descent
import UtilityCss.Proofs.Theme.Outcome

set_option autoImplicit false

namespace UtilityCss

open UtilityCss.Config
open Relation

namespace Theme

namespace Plan

variable {α β : Type}

def Relays : Plan α → Prop
  | .done _ => True
  | .fail error => ∀ chain, error ≠ .circularReference chain
  | .ask _ next => ∀ found, (next (.ok found)).Relays

theorem Relays.andThen {plan : Plan α} {next : α → Plan β} (first : plan.Relays)
    (rest : ∀ value, (next value).Relays) : (plan.andThen next).Relays := by
  induction plan with
  | done value => exact rest value
  | fail error => exact first
  | ask path more ih => exact fun found => ih _ (first found)

mutual

theorem relays_ofSetting {kind : String → Prop} :
    ∀ setting : Setting, setting.Refers kind → (ofSetting setting).Relays
  | .literal _, _ => trivial
  | .deferred value, refers => by
    obtain ⟨path, rfl, -⟩ := refers value (by simp [Setting.deferredValues])
    intro found
    cases found with
    | none => exact nofun
    | some value => trivial
  | .table entries, refers =>
    (relays_ofEntries entries (Setting.refers_table.1 refers)).andThen fun _ => trivial

theorem relays_ofEntries {kind : String → Prop} :
    ∀ entries : List (String × Setting), (∀ entry ∈ entries, entry.2.Refers kind) →
      (ofEntries entries).Relays
  | [], _ => trivial
  | (_, setting) :: rest, refers => by
    obtain ⟨first, others⟩ := List.forall_mem_cons.1 refers
    exact (relays_ofSetting setting first).andThen fun _ =>
      (relays_ofEntries rest others).andThen fun _ => trivial

end

theorem relays_ofSetting? {kind : String → Prop} (combine : Option Value → Value → Value)
    (running : Option Value) {setting : Option Setting}
    (refers : ∀ found ∈ setting, found.Refers kind) :
    (ofSetting? combine running setting).Relays := by
  cases setting with
  | none => trivial
  | some setting => exact (relays_ofSetting setting (refers setting rfl)).andThen fun _ => trivial

theorem relays_ofSections {kind : String → Prop} {key : String} {sections : List (Table Setting)}
    (refers : ∀ setting ∈ settingsFor key sections, setting.Refers kind) (running : Option Value) :
    (ofSections key sections running).Relays := by
  induction sections generalizing running with
  | nil => trivial
  | cons part rest ih =>
    simp only [settingsFor, List.flatMap_cons, List.mem_append, Option.mem_toList] at refers
    have defined : ∀ found ∈ definition? key part, found.Refers kind :=
      fun found member => refers found (.inl (.inl member))
    have added : ∀ found ∈ addition? key part, found.Refers kind :=
      fun found member => refers found (.inl (.inr member))
    exact (relays_ofSetting? _ _ defined).andThen fun _ =>
      (relays_ofSetting? _ _ added).andThen fun _ =>
        ih (fun found member => refers found (.inr member)) _

end Plan

namespace Basis

variable {r : Basis} {m : Memory} {key other segment path : String} {theme : Theme}

def Loops (r : Basis) (chain : List String) : Prop :=
  ∃ keys last, chain = keys ++ [last] ∧ keys.Nodup ∧ (∀ key ∈ keys, key ∈ r.configKeys) ∧
    last ∈ keys ∧ chain.IsChain r.Reads

def Names (r : Basis) (key other : String) : Prop :=
  key ∈ r.configKeys ∧ other ∈ r.configKeys ∧
    ∃ path ∈ r.pathsOf key, firstSegment? path = some other

def Justified (r : Basis) {α : Type} (outcome : Except SettingsError α × Memory) : Prop :=
  ∀ chain, outcome.1 = .error (.circularReference chain) → r.Loops chain

theorem justified_ok {α : Type} {value : α} : r.Justified (.ok value, m) := nofun

theorem Justified.relay {α β : Type} {error : SettingsError} {after : Memory}
    (justified : r.Justified ((.error error, m) : Except SettingsError α × Memory)) :
    r.Justified ((.error error, after) : Except SettingsError β × Memory) :=
  fun chain fails => justified chain (congrArg Except.error (Except.error.inj fails))

theorem Tracks.loops (tracks : r.Tracks m) (linked : ∀ last ∈ m.chain.getLast?, r.Reads last key)
    (entered : m.progress? key = some .entered) : r.Loops (m.chain ++ [key]) := by
  refine ⟨m.chain, key, rfl, tracks.valid.nodup, tracks.configured,
    (tracks.valid.entered key).1 entered, tracks.linked.append (List.isChain_singleton key) ?_⟩
  intro last isLast next isNext
  obtain rfl : key = next := by simpa using isNext
  exact linked last isLast

theorem run_justified {α : Type} {kind : String → Prop} {chain : List String}
    {asked : String → Step (Option Value)}
    (answers : ∀ path, kind path → ∀ m, r.Tracks m → m.chain = chain →
      r.Returns m (asked path m) ∧ r.Justified (asked path m))
    (plan : Plan α) (refers : plan.Refers kind) (relays : plan.Relays) (tracks : r.Tracks m)
    (isChain : m.chain = chain) : r.Justified (plan.run asked m) := by
  induction plan generalizing m with
  | done value => exact justified_ok
  | fail error => exact fun cycle fails => absurd (Except.error.inj fails) (relays cycle)
  | ask path next ih =>
    obtain ⟨isKind, ends, -, goes⟩ := refers
    obtain ⟨returns, justified⟩ := answers path isKind m tracks isChain
    rcases found : asked path m with ⟨error | value, middle⟩
    · rw [found] at justified
      simpa only [Plan.run, found, ends] using justified.relay
    · rw [found] at returns
      simpa only [Plan.run, found] using
        ih _ (goes value) (relays value) returns.tracks (returns.chain.trans isChain)

theorem segmentValue_justified {ofKey : String → Step (Option Value)}
    (justified : ∀ key, r.layerKey? segment = some key → r.Justified (ofKey key m)) :
    r.Justified (r.segmentValue ofKey segment m) := by
  unfold segmentValue
  rcases configKey?_cases r segment m with isKey | ⟨key, -, -, -, skipped⟩
  · cases read : r.layerKey? segment with
    | none =>
      rw [isKey, read]
      exact justified_ok
    | some key =>
      have answer := justified key read
      rw [isKey, read]
      dsimp only
      rcases found : ofKey key m with ⟨error | value, after⟩
      · rw [found] at answer
        exact answer.relay
      · exact justified_ok
  · rw [skipped]
    exact justified_ok

theorem valueAtPath_justified {ofKey : String → Step (Option Value)}
    (justified : ∀ key, r.readKey? path = some key → r.Justified (ofKey key m)) :
    r.Justified (r.valueAtPath ofKey path m) := by
  unfold valueAtPath
  cases split : splitKeyPath path with
  | error fault => exact nofun
  | ok segments =>
    cases segments with
    | nil => exact justified_ok
    | cons first rest =>
      have isFirst : firstSegment? path = some first := by simp [firstSegment?, split]
      rw [readKey?_of_first isFirst] at justified
      have answer := segmentValue_justified justified
      dsimp only
      rcases found : r.segmentValue ofKey first m with ⟨error | value, after⟩
      · rw [found] at answer
        exact answer.relay
      · exact justified_ok

theorem valueOfKey_justified (only : r.OnlyReferences) (depth : Nat) (key : String) (m : Memory)
    (configured : key ∈ r.configKeys) (tracks : r.Tracks m)
    (linked : ∀ last ∈ m.chain.getLast?, r.Reads last key)
    (deep : r.configKeys.length < m.chain.length + depth) :
    r.Justified (r.valueOfKey depth key m) := by
  induction depth generalizing key m with
  | zero =>
    have bound := tracks.length_le
    omega
  | succ depth ih =>
    rcases known : m.progress? key with _ | ⟨_ | value⟩
    · rw [valueOfKey_succ depth known]
      refine run_justified (fun path inside middle still isChain => ?_) (r.planOf key)
        (only.planOf key) (Plan.relays_ofSections (only key) none)
        (tracks.enter known configured linked) rfl
      rw [Memory.chain_enter] at isChain
      refine ⟨(shows_inside only depth inside still isChain).returns,
        valueAtPath_justified fun other read => ih other middle (readKey?_mem read) still
          (fun _ isLast => reads_from_last inside read (isChain ▸ isLast)) ?_⟩
      rw [isChain, List.length_append, List.length_singleton]
      omega
    · rw [valueOfKey_entered _ known]
      exact fun chain fails =>
        SettingsError.circularReference.inj (Except.error.inj fails) ▸ tracks.loops linked known
    · rw [valueOfKey_finished _ known]
      exact justified_ok

theorem collect_justified (only : r.OnlyReferences) (keys : List String) (tracks : r.Tracks m)
    (idle : m.chain = []) : r.Justified (r.collect keys m) := by
  induction keys generalizing m with
  | nil => exact justified_ok
  | cons key rest ih =>
    have answer : r.Justified (r.find key m) := segmentValue_justified fun other read =>
      valueOfKey_justified only r.depth other m (layerKey?_mem read) tracks (by simp [idle])
        (by simp [idle, depth])
    obtain ⟨tracked, grown, -⟩ := segmentValue_shows key tracks fun other read =>
      valueOfKey_resolves only r.depth other (layerKey?_mem read) m tracks (by simp [idle])
    unfold collect
    rcases found : r.find key m with ⟨error | value, middle⟩
    · rw [found] at answer
      exact answer.relay
    · rw [find] at found
      rw [found] at tracked grown
      have later := ih tracked (grown.chain.trans idle)
      dsimp only at later ⊢
      rcases ran : r.collect rest middle with ⟨error | values, after⟩
      · rw [ran] at later
        exact later.relay
      · exact justified_ok

theorem Leaves.behind_of_names (leaves : r.Leaves m theme) (names : r.Names key other) :
    (Table.get? other (Table.behind key m.settled)).isSome := by
  obtain ⟨configured, isOther, path, inside, first⟩ := names
  obtain ⟨value, found⟩ := Option.isSome_iff_exists.1 (leaves.complete key configured)
  have read : r.readKey? path = some other := by
    rw [readKey?_of_first first, layerKey?_self isOther]
  rcases (leaves.tracks.settled.answered leaves.only found).2 path inside other read with
    listed | ⟨⟨segment, next, isFirst, isRead, raw⟩, -⟩
  · exact listed
  · obtain rfl := Option.some.inj (first.symm.trans isFirst)
    exact absurd (Option.some.inj ((layerKey?_self isOther).symm.trans isRead)) raw

theorem Leaves.acyclic (leaves : r.Leaves m theme) (key : String) : ¬ TransGen r.Names key key := by
  have earlier : ∀ first last, TransGen r.Names first last →
      (Table.behind last m.settled).length < (Table.behind first m.settled).length := by
    intro first last leads
    have distinct := Memory.distinct_settled leaves.tracks.valid
    induction leads with
    | single names => exact Table.length_behind_lt distinct (leaves.behind_of_names names)
    | tail _ names ih =>
      exact (Table.length_behind_lt distinct (leaves.behind_of_names names)).trans ih
  exact fun loop => lt_irrefl _ (earlier key key loop)

end Basis

/-- A layer refers to a path under a key, in what it defines there or in what it adds. -/
def RefersTo (stack : Stack) (key path : String) : Prop :=
  ∃ layer ∈ stack, ∃ setting, (layer.config.settingAt [themeEntry, key] = some setting ∨
    layer.config.settingAt [themeEntry, extendEntry, key] = some setting) ∧ path ∈ setting.paths

theorem exists_section_of_addition {layer : Layer} {key : String}
    (found : (layer.config.settingAt [themeEntry, extendEntry, key]).isSome) :
    ∃ part, layer.config.get? themeEntry = some (.table part) := by
  apply exists_section_of_settingAt
  simp only [Setting.settingAt, Option.isSome_bind, Option.any_eq_true] at found ⊢
  obtain ⟨section?, isSection, additions, isAdditions, -⟩ := found
  exact ⟨section?, isSection, additions, isAdditions, rfl⟩

theorem mem_pathsOf_iff {tokens : Tokens} {stack : Stack} {r : Basis} {key path : String}
    (isBasis : Basis.ofLayers tokens stack = .ok r) :
    path ∈ r.pathsOf key ↔ RefersTo stack key path := by
  have sections := (Basis.ofLayers_eq_ok isBasis).2
  simp only [Basis.pathsOf, Plan.settingsFor, List.mem_flatMap, List.mem_append, Option.mem_toList]
  constructor
  · rintro ⟨setting, ⟨part, member, isSetting⟩, inside⟩
    obtain ⟨layer, isLayer, isTheme⟩ := Basis.mem_sectionsOf sections part member
    refine ⟨layer, isLayer, setting, ?_, inside⟩
    rw [settingAt_definition isTheme, settingAt_addition isTheme]
    exact isSetting
  · rintro ⟨layer, isLayer, setting, isSetting, inside⟩
    obtain ⟨part, isTheme⟩ : ∃ part, layer.config.get? themeEntry = some (.table part) := by
      rcases isSetting with defined | added
      · exact exists_section_of_settingAt (by rw [defined]; rfl)
      · exact exists_section_of_addition (by rw [added]; rfl)
    rw [settingAt_definition isTheme, settingAt_addition isTheme] at isSetting
    exact ⟨setting, ⟨part, Basis.part_mem_sectionsOf sections isLayer isTheme, isSetting⟩, inside⟩

theorem theme_ne_circularReference (layer : Layer) (index : Nat) (chain : List String) :
    layer.theme index ≠ .error (.circularReference chain) := by
  unfold Layer.theme
  dsimp only
  split
  · split
    · exact nofun
    · split <;> exact nofun
    · exact nofun
  · exact nofun

theorem Basis.sectionsOf_ne_circularReference (index : Nat) (stack : Stack) (chain : List String) :
    sectionsOf index stack ≠ .error (.circularReference chain) := by
  induction stack generalizing index with
  | nil => simp [sectionsOf]
  | cons layer rest ih =>
    intro same
    rw [sectionsOf] at same
    cases own : layer.theme index with
    | error error =>
      rw [own] at same
      exact theme_ne_circularReference layer index chain
        (own.trans (congrArg Except.error (Except.error.inj same)))
    | ok part =>
      cases later : sectionsOf (index + 1) rest with
      | error error =>
        rw [own, later] at same
        exact ih (index + 1) (later.trans (congrArg Except.error (Except.error.inj same)))
      | ok others => simp [own, later, Except.map] at same

theorem Basis.ofLayers_ne_circularReference (tokens : Tokens) (stack : Stack)
    (chain : List String) : ofLayers tokens stack ≠ .error (.circularReference chain) := by
  unfold ofLayers
  cases sections : sectionsOf 0 stack with
  | error error =>
    exact fun same => sectionsOf_ne_circularReference 0 stack chain
      (sections.trans (congrArg Except.error (Except.error.inj same)))
  | ok parts => exact nofun

theorem ofTokens_eq_error {tokens : Tokens} {stack : Stack} {error : SettingsError}
    (fails : ofTokens tokens stack = .error error) :
    Basis.ofLayers tokens stack = .error error ∨ ∃ r, Basis.ofLayers tokens stack = .ok r ∧
      (r.collect r.keys Memory.empty).1 = .error error := by
  unfold ofTokens at fails
  cases layers : Basis.ofLayers tokens stack with
  | error fault =>
    rw [layers] at fails
    exact .inl (congrArg Except.error (Except.error.inj fails))
  | ok r =>
    rw [layers] at fails
    refine .inr ⟨r, rfl, ?_⟩
    cases entries : (r.collect r.keys Memory.empty).1 with
    | ok values => simp [entries, Except.map] at fails
    | error fault => simpa [entries, Except.map] using fails

/-- A circular reference that is reported is one, no resolution succeeds where keys refer to each
other by name in a circle, and every resolution ends. -/
theorem ofTokens_detects_cycles {tokens : Tokens} {stack : Stack}
    (references : ∀ layer ∈ stack, layer.config.Refers fun _ => True) :
    (∀ chain, ofTokens tokens stack = .error (.circularReference chain) →
      ∃ r keys last, Basis.ofLayers tokens stack = .ok r ∧ chain = keys ++ [last] ∧ keys.Nodup ∧
        (∀ key ∈ keys, key ∈ r.configKeys) ∧ last ∈ keys ∧
        chain.IsChain fun key next =>
          ∃ path, RefersTo stack key path ∧ r.readKey? path = some next) ∧
    ∀ r, Basis.ofLayers tokens stack = .ok r →
      (∀ key, TransGen (fun key next => key ∈ r.configKeys ∧ next ∈ r.configKeys ∧
          ∃ path, RefersTo stack key path ∧ firstSegment? path = some next) key key →
        ∀ theme, ofTokens tokens stack ≠ .ok theme) ∧
      ∀ floor, ofTokens tokens stack =
        ((r.collectBy (r.descend^[r.depth] floor) r.keys Memory.empty).1).map Theme.mk := by
  constructor
  · intro chain fails
    rcases ofTokens_eq_error fails with malformed | ⟨r, isBasis, collected⟩
    · exact absurd malformed (Basis.ofLayers_ne_circularReference tokens stack chain)
    · have only : r.OnlyReferences := Basis.refers_of_stack isBasis references
      have justified := Basis.collect_justified only r.keys (Basis.tracks_empty r) rfl
      obtain ⟨keys, last, split, distinct, configured, again, linked⟩ := justified chain collected
      refine ⟨r, keys, last, isBasis, split, distinct, configured, again, linked.imp ?_⟩
      rintro key next ⟨path, inside, read⟩
      exact ⟨path, (mem_pathsOf_iff isBasis).1 inside, read⟩
  · intro r isBasis
    have only : r.OnlyReferences := Basis.refers_of_stack isBasis references
    constructor
    · intro key loop theme resolved
      obtain ⟨same, isSame, leaves⟩ := Basis.leaves_of_resolved references resolved
      obtain rfl := Except.ok.inj (isBasis.symm.trans isSame)
      refine leaves.acyclic key (TransGen.mono (fun first next => ?_) key key loop)
      rintro ⟨isFirst, isNext, path, refersTo, isSegment⟩
      exact ⟨isFirst, isNext, path, (mem_pathsOf_iff isBasis).2 refersTo, isSegment⟩
    · intro floor
      rw [ofTokens, isBasis]
      dsimp only
      rw [Basis.collectBy_congr only (Basis.answersWithin_iterate only floor r.depth) r.keys
        (Basis.tracks_empty r) rfl]

def circle : Stack :=
  [.ofTheme [("accent", .table [("dark", .deferred (.reference "color.brand")),
    ("light", .deferred (.reference "colors.brand"))])],
   .ofTheme [("extend", .table [("colors", .table
    [("brand", .deferred (.reference "palette.base"))])])],
   .ofTheme [("palette", .table [("base", .deferred (.reference "accent"))])]]

theorem circle_detected :
    (∀ layer ∈ circle, layer.config.Refers fun _ => True) ∧
      ofTokens ⟨[]⟩ circle =
        .error (.circularReference ["accent", "colors", "palette", "accent"]) ∧
      ∃ r, Basis.ofLayers ⟨[]⟩ circle = .ok r ∧
        (["accent", "colors", "palette", "accent"].IsChain fun key next =>
          ∃ path, RefersTo circle key path ∧ r.readKey? path = some next) ∧
        TransGen (fun key next => key ∈ r.configKeys ∧ next ∈ r.configKeys ∧
          ∃ path, RefersTo circle key path ∧ firstSegment? path = some next) "accent" "accent" ∧
        ∀ theme, ofTokens ⟨[]⟩ circle ≠ .ok theme := by
  have references : ∀ layer ∈ circle, layer.config.Refers fun _ => True := by
    simp [circle, Layer.ofTheme, Setting.Refers, Setting.deferredValues, Setting.deferredEntries]
  have fails : ofTokens ⟨[]⟩ circle =
      .error (.circularReference ["accent", "colors", "palette", "accent"]) := by
    have summary : (ofTokens ⟨[]⟩ circle).map (fun _ => ()) =
        .error (.circularReference ["accent", "colors", "palette", "accent"]) := by decide +kernel
    cases resolved : ofTokens ⟨[]⟩ circle with
    | ok theme => cases resolved ▸ summary
    | error error =>
      rw [resolved] at summary
      exact congrArg Except.error (Except.error.inj summary)
  obtain ⟨sound, complete⟩ := @ofTokens_detects_cycles ⟨[]⟩ circle references
  obtain ⟨r, keys, last, isBasis, split, -, configured, -, linked⟩ := sound _ fails
  obtain ⟨rfl, -⟩ : ["accent", "colors", "palette"] = keys ∧ ["accent"] = [last] :=
    List.append_inj' split rfl
  simp only [List.forall_mem_cons] at configured
  obtain ⟨accent, colors, palette, -⟩ := configured
  have brand : firstSegment? "colors.brand" = some "colors" := by decide +kernel
  have base : firstSegment? "palette.base" = some "palette" := by decide +kernel
  have whole : firstSegment? "accent" = some "accent" := by decide +kernel
  have first : RefersTo circle "accent" "colors.brand" :=
    ⟨_, List.mem_cons_self, _, .inl rfl, by decide⟩
  have second : RefersTo circle "colors" "palette.base" :=
    ⟨_, List.mem_cons_of_mem _ List.mem_cons_self, _, .inr rfl, by decide⟩
  have third : RefersTo circle "palette" "accent" :=
    ⟨_, List.mem_cons_of_mem _ (List.mem_cons_of_mem _ List.mem_cons_self), _, .inl rfl, by decide⟩
  have loop : TransGen (fun key next => key ∈ r.configKeys ∧ next ∈ r.configKeys ∧
      ∃ path, RefersTo circle key path ∧ firstSegment? path = some next) "accent" "accent" :=
    .head ⟨accent, colors, _, first, brand⟩
      (.head ⟨colors, palette, _, second, base⟩ (.single ⟨palette, accent, _, third, whole⟩))
  exact ⟨references, fails, r, isBasis, linked, loop, (complete r isBasis).1 "accent" loop⟩

end Theme

end UtilityCss
