import Mathlib.Data.List.Chain
import Mathlib.Logic.Relation
import UtilityCss.Proofs.Theme.Memory
import UtilityCss.Proofs.Theme.Plan

set_option autoImplicit false

namespace UtilityCss.Theme

open UtilityCss.Config
open Relation

def firstSegment? (path : String) : Option String :=
  match splitKeyPath path with
  | .ok (first :: _) => some first
  | _ => none

namespace Basis

variable (r : Basis)

def layerKey? (segment : String) : Option String :=
  if segment ∈ r.configKeys then some segment
  else if isAliased segment && keyOf segment ∈ r.configKeys then some (keyOf segment)
  else none

def readKey? (path : String) : Option String := (firstSegment? path).bind r.layerKey?

/-- The path starts with a namespace in place of the key that it is exposed under. -/
def IsRaw (path : String) : Prop :=
  ∃ segment key, firstSegment? path = some segment ∧ r.layerKey? segment = some key ∧ segment ≠ key

def pathsOf (key : String) : List String :=
  (Plan.settingsFor key r.sections).flatMap Setting.paths

def Reads (key other : String) : Prop := ∃ path ∈ r.pathsOf key, r.readKey? path = some other

def planOf (key : String) : Plan (Option Value) := Plan.ofSections key r.sections none

def OnlyReferences : Prop :=
  ∀ key, ∀ setting ∈ Plan.settingsFor key r.sections, setting.Refers fun _ => True

variable {r} in
theorem OnlyReferences.setting (only : r.OnlyReferences) {key : String} {setting : Setting}
    (member : setting ∈ Plan.settingsFor key r.sections) : setting.Refers (· ∈ r.pathsOf key) :=
  (only key setting member).mono fun _ inside _ => List.mem_flatMap.2 ⟨setting, member, inside⟩

variable {r} in
theorem OnlyReferences.planOf (only : r.OnlyReferences) (key : String) :
    (r.planOf key).Refers (· ∈ r.pathsOf key) :=
  Plan.refers_ofSections (fun _ member => only.setting member) none

def shownSegment (settled : Table (Option Value)) (segment : String) : Option Value :=
  Value.overlay? (r.tokenTable? segment)
    ((r.layerKey? segment).bind fun key => (Table.get? key settled).join)

def shown (settled : Table (Option Value)) (path : String) : Option Value :=
  match splitKeyPath path with
  | .ok (first :: rest) => (r.shownSegment settled first).bind (follow rest)
  | _ => none

inductive Settled : Table (Option Value) → Prop
  | nil : Settled []
  | cons {key : String} {value : Option Value} {settled : Table (Option Value)}
      (rest : Settled settled) (configured : key ∈ r.configKeys)
      (fresh : Table.get? key settled = none)
      (folded : (r.planOf key).answered (r.shown settled) = .ok value)
      (reads : ∀ path ∈ (r.planOf key).asked (r.shown settled), ∀ other,
        r.readKey? path = some other →
          (Table.get? other settled).isSome ∨ r.IsRaw path ∧ ReflTransGen r.Reads other key) :
      Settled ((key, value) :: settled)

def DecidesSegment (m : Memory) (segment : String) : Prop :=
  ∀ key, r.layerKey? segment = some key → (∃ value, m.progress? key = some (.finished value)) ∨
    segment ≠ key ∧ m.progress? key = some .entered

def Decides (m : Memory) (path : String) : Prop :=
  ∀ segment, firstSegment? path = some segment → r.DecidesSegment m segment

structure Tracks (m : Memory) : Prop where
  valid : m.Valid
  configured : ∀ key ∈ m.chain, key ∈ r.configKeys
  linked : m.chain.IsChain r.Reads
  settled : r.Settled m.settled

structure Resolves (m : Memory) (key : String)
    (outcome : Except SettingsError (Option Value) × Memory) : Prop where
  tracks : r.Tracks outcome.2
  grows : m.Grows outcome.2
  finished : ∀ value, outcome.1 = .ok value →
    outcome.2.progress? key = some (.finished value)

structure Shows (m : Memory) (path : String)
    (outcome : Except SettingsError (Option Value) × Memory) : Prop where
  tracks : r.Tracks outcome.2
  grows : m.Grows outcome.2
  decides : ∀ value, outcome.1 = .ok value → r.Decides outcome.2 path
  shown : ∀ value, outcome.1 = .ok value → r.shown outcome.2.settled path = value

variable {r} {m before after : Memory} {key segment path : String} {value : Option Value}

theorem layerKey?_mem (read : r.layerKey? segment = some key) : key ∈ r.configKeys := by
  unfold layerKey? at read
  split_ifs at read with configured aliased
  · exact Option.some.inj read ▸ configured
  · simp only [Bool.and_eq_true, decide_eq_true_eq] at aliased
    exact Option.some.inj read ▸ aliased.2

theorem readKey?_mem (read : r.readKey? path = some key) : key ∈ r.configKeys := by
  obtain ⟨segment, -, found⟩ := Option.bind_eq_some_iff.1 read
  exact layerKey?_mem found

theorem configKey?_cases (r : Basis) (segment : String) (m : Memory) :
    r.configKey? segment m = r.layerKey? segment ∨
      ∃ key, r.layerKey? segment = some key ∧ segment ≠ key ∧
        m.progress? key = some .entered ∧ r.configKey? segment m = none := by
  unfold configKey? layerKey?
  split_ifs with configured aliased
  · exact .inl rfl
  · simp only [Bool.and_eq_true, decide_eq_true_eq] at aliased
    cases inside : m.isEntered (keyOf segment) with
    | false => exact .inl (by simp [aliased, inside])
    | true =>
      refine .inr ⟨_, rfl, ?_, Memory.isEntered_iff.1 inside, by simp [inside]⟩
      rintro same
      exact configured (same ▸ aliased.2)
  · simp only [Bool.and_eq_true, decide_eq_true_eq, not_and] at aliased
    exact .inl (if_neg (by simpa using fun isAliased found => absurd found (aliased isAliased)))

theorem overlay?_none (base : Option Value) : Value.overlay? base none = base := by
  cases base <;> rfl

theorem readKey?_of_first (first : firstSegment? path = some segment) :
    r.readKey? path = r.layerKey? segment := by
  simp [readKey?, first]

theorem shownSegment_congr {settled other : Table (Option Value)}
    (same : ∀ key, r.layerKey? segment = some key →
      (Table.get? key settled).join = (Table.get? key other).join) :
    r.shownSegment settled segment = r.shownSegment other segment := by
  unfold shownSegment
  cases found : r.layerKey? segment with
  | none => rfl
  | some key => rw [Option.bind_some, Option.bind_some, same key found]

theorem shown_congr {settled other : Table (Option Value)}
    (same : ∀ segment, firstSegment? path = some segment →
      r.shownSegment settled segment = r.shownSegment other segment) :
    r.shown settled path = r.shown other path := by
  unfold shown
  split
  next first rest split => rw [same first (by simp [firstSegment?, split])]
  next => rfl

theorem get?_settled_of_entered (valid : m.Valid) (entered : m.progress? key = some .entered) :
    Table.get? key m.settled = none := by
  rw [Option.eq_none_iff_forall_ne_some]
  intro value found
  rw [(Memory.get?_settled valid).1 found] at entered
  cases entered

theorem DecidesSegment.mono (decides : r.DecidesSegment before segment)
    (grows : before.Grows after) (first : before.Valid) (last : after.Valid) :
    r.DecidesSegment after segment ∧
      r.shownSegment after.settled segment = r.shownSegment before.settled segment := by
  constructor
  · intro key read
    rcases decides key read with ⟨value, known⟩ | ⟨raw, entered⟩
    · exact .inl ⟨value, grows.finished key value known⟩
    · exact .inr ⟨raw, (grows.entered first last key).2 entered⟩
  · apply shownSegment_congr
    intro key read
    rcases decides key read with ⟨value, known⟩ | ⟨-, entered⟩
    · rw [(Memory.get?_settled first).2 known,
        (Memory.get?_settled last).2 (grows.finished key value known)]
    · rw [get?_settled_of_entered first entered,
        get?_settled_of_entered last ((grows.entered first last key).2 entered)]

theorem Decides.mono (decides : r.Decides before path) (grows : before.Grows after)
    (first : before.Valid) (last : after.Valid) :
    r.Decides after path ∧ r.shown after.settled path = r.shown before.settled path :=
  ⟨fun segment isFirst => ((decides segment isFirst).mono grows first last).1,
    shown_congr fun segment isFirst => ((decides segment isFirst).mono grows first last).2⟩

theorem tracks_empty (r : Basis) : r.Tracks Memory.empty :=
  ⟨Memory.valid_empty, by simp [Memory.empty], List.isChain_nil, .nil⟩

theorem Tracks.enter (tracks : r.Tracks m) (unknown : m.progress? key = none)
    (configured : key ∈ r.configKeys) (linked : ∀ last ∈ m.chain.getLast?, r.Reads last key) :
    r.Tracks (m.enter key) where
  valid := tracks.valid.enter unknown
  configured := by
    simpa [or_imp, forall_and, configured] using tracks.configured
  linked := by
    rw [Memory.chain_enter]
    apply tracks.linked.append (List.isChain_singleton key)
    intro last member next isNext
    obtain rfl : key = next := by simpa using isNext
    exact linked last member
  settled := by
    rw [Memory.settled_enter unknown]
    exact tracks.settled

-- The keys of the chain lead to the one that was entered last, through references.
theorem leads_of_linked {chain : List String} (linked : (chain ++ [key]).IsChain r.Reads) :
    ∀ other ∈ chain ++ [key], ReflTransGen r.Reads other key := by
  induction chain with
  | nil => simp [ReflTransGen.refl]
  | cons first rest ih =>
    have later := ih (linked.tail)
    rw [List.cons_append, List.forall_mem_cons]
    refine ⟨?_, later⟩
    rw [List.cons_append, List.isChain_cons] at linked
    cases rest with
    | nil => exact .single (linked.1 key (by simp))
    | cons next rest => exact .head (linked.1 next (by simp)) (later next (by simp))

theorem Tracks.leave (tracks : r.Tracks after) (chain : after.chain = before.chain ++ [key])
    (result : Except SettingsError (Option Value))
    (settled : r.Settled (after.leave key result).settled) : r.Tracks (after.leave key result) where
  valid := tracks.valid.leave chain _
  configured other member := by
    rw [Memory.chain_leave] at member
    exact tracks.configured other (List.dropLast_sublist _ |>.subset member)
  linked := by
    rw [Memory.chain_leave]
    exact tracks.linked.dropLast
  settled := settled

theorem Tracks.leave_ok (tracks : r.Tracks after) (chain : after.chain = before.chain ++ [key])
    (folded : (r.planOf key).answered (r.shown after.settled) = .ok value)
    (decides : ∀ path ∈ (r.planOf key).asked (r.shown after.settled), r.Decides after path) :
    r.Tracks (after.leave key (.ok value)) := by
  have entered : after.progress? key = some .entered :=
    (tracks.valid.entered key).2 (by simp [chain])
  have linked := tracks.linked
  rw [chain] at linked
  apply tracks.leave chain _
  rw [Memory.settled_leave_ok tracks.valid entered]
  refine .cons tracks.settled (tracks.configured key (by simp [chain]))
    (get?_settled_of_entered tracks.valid entered) folded fun path member other read => ?_
  -- A key that is not finished stands on the chain, and the chain leads to the key that is left.
  obtain ⟨segment, first, layers⟩ := Option.bind_eq_some_iff.1 read
  rcases decides path member segment first other layers with ⟨found, known⟩ | ⟨raw, inside⟩
  · rw [(Memory.get?_settled tracks.valid).2 known]
    exact .inl rfl
  · refine .inr ⟨⟨segment, other, first, layers, raw⟩, leads_of_linked linked other ?_⟩
    rw [← chain]
    exact (tracks.valid.entered other).1 inside

theorem Tracks.leave_error (tracks : r.Tracks after) (chain : after.chain = before.chain ++ [key])
    (error : SettingsError) : r.Tracks (after.leave key (.error error)) := by
  have entered : after.progress? key = some .entered :=
    (tracks.valid.entered key).2 (by simp [chain])
  apply tracks.leave chain _
  rw [Memory.settled_leave_error tracks.valid entered]
  exact tracks.settled

theorem run_shows {α : Type} {kind : String → Prop} {chain : List String}
    {asked : String → Step (Option Value)}
    (answers : ∀ path, kind path → ∀ m, r.Tracks m → m.chain = chain →
      r.Shows m path (asked path m))
    (plan : Plan α) (refers : plan.Refers kind) (tracks : r.Tracks m) (isChain : m.chain = chain) :
    r.Tracks (plan.run asked m).2 ∧ m.Grows (plan.run asked m).2 ∧
      ∀ value, (plan.run asked m).1 = .ok value →
        ∀ last, r.Tracks last → (plan.run asked m).2.Grows last →
          plan.answered (r.shown last.settled) = .ok value ∧
            ∀ path ∈ plan.asked (r.shown last.settled), r.Decides last path := by
  induction plan generalizing m with
  | done value =>
    refine ⟨tracks, .refl m, ?_⟩
    intro other same last _ _
    exact ⟨same, by simp [Plan.asked]⟩
  | fail error => exact ⟨tracks, .refl m, fun other same => by cases same⟩
  | ask path next ih =>
    obtain ⟨isKind, ends, -, goes⟩ := refers
    have answer := answers path isKind m tracks isChain
    rcases found : asked path m with ⟨error | value, middle⟩
    · rw [found] at answer
      have run : (Plan.ask path next).run asked m = (.error error, middle) := by
        simp [Plan.run, found, ends]
      rw [run]
      exact ⟨answer.tracks, answer.grows, fun other same => by cases same⟩
    · rw [found] at answer
      have run : (Plan.ask path next).run asked m = (next (.ok value)).run asked middle := by
        simp [Plan.run, found]
      rw [run]
      obtain ⟨tracked, grown, explained⟩ :=
        ih (.ok value) (goes value) answer.tracks (answer.grows.chain.trans isChain)
      refine ⟨tracked, answer.grows.trans grown, ?_⟩
      intro result ok last lastTracks later
      -- The answer was decided when it was given, so it is what the later state shows.
      obtain ⟨rest, decided⟩ := explained result ok last lastTracks later
      obtain ⟨decides, same⟩ := (answer.decides value rfl).mono (grown.trans later)
        answer.tracks.valid lastTracks.valid
      have shown : r.shown last.settled path = value := same.trans (answer.shown value rfl)
      simp only [Plan.answered, Plan.asked, shown, List.forall_mem_cons]
      exact ⟨rest, decides, decided⟩

theorem segmentValue_shows (segment : String) {ofKey : String → Step (Option Value)}
    (tracks : r.Tracks m)
    (resolves : ∀ key, r.layerKey? segment = some key → r.Resolves m key (ofKey key m)) :
    r.Tracks (r.segmentValue ofKey segment m).2 ∧ m.Grows (r.segmentValue ofKey segment m).2 ∧
      ∀ value, (r.segmentValue ofKey segment m).1 = .ok value →
        r.DecidesSegment (r.segmentValue ofKey segment m).2 segment ∧
          r.shownSegment (r.segmentValue ofKey segment m).2.settled segment = value := by
  unfold segmentValue
  rcases configKey?_cases r segment m with same | ⟨key, read, raw, entered, skipped⟩
  · cases read : r.layerKey? segment with
    | none =>
      rw [same, read]
      refine ⟨tracks, .refl m, fun value ok => ⟨fun key found => ?_, ?_⟩⟩
      · simp [read] at found
      · rw [shownSegment, read, ← Except.ok.inj ok]
        exact overlay?_none _
    | some key =>
      have answer := resolves key read
      rw [same, read]
      dsimp only
      rcases found : ofKey key m with ⟨error | known, after⟩
      · rw [found] at answer
        exact ⟨answer.tracks, answer.grows, nofun⟩
      · rw [found] at answer
        have finished := answer.finished known rfl
        refine ⟨answer.tracks, answer.grows, fun value ok => ⟨fun other isOther => ?_, ?_⟩⟩
        · exact .inl ⟨known, Option.some.inj (read.symm.trans isOther) ▸ finished⟩
        · rw [shownSegment, read, Option.bind_some,
            (Memory.get?_settled answer.tracks.valid).2 finished, ← Except.ok.inj ok]
          rfl
  · rw [skipped]
    refine ⟨tracks, .refl m, fun value ok => ⟨fun other isOther => ?_, ?_⟩⟩
    · obtain rfl : key = other := Option.some.inj (read.symm.trans isOther)
      exact .inr ⟨raw, entered⟩
    · rw [shownSegment, read, Option.bind_some, get?_settled_of_entered tracks.valid entered,
        ← Except.ok.inj ok]
      exact overlay?_none _

theorem valueAtPath_shows {ofKey : String → Step (Option Value)} (tracks : r.Tracks m)
    (resolves : ∀ key, r.readKey? path = some key → r.Resolves m key (ofKey key m)) :
    r.Shows m path (r.valueAtPath ofKey path m) := by
  unfold valueAtPath
  split
  next fault split => exact ⟨tracks, .refl m, nofun, nofun⟩
  next split =>
    refine ⟨tracks, .refl m, fun _ _ segment first => ?_, fun value same => ?_⟩
    · simp [firstSegment?, split] at first
    · simpa [shown, split] using Except.ok.inj same
  next first rest split =>
    have isFirst : firstSegment? path = some first := by simp [firstSegment?, split]
    rw [readKey?_of_first isFirst] at resolves
    obtain ⟨tracked, grows, answer⟩ := segmentValue_shows first tracks resolves
    rcases found : r.segmentValue ofKey first m with ⟨error | value, after⟩
    · rw [found] at tracked grows
      exact ⟨tracked, grows, nofun, nofun⟩
    · rw [found] at tracked grows answer
      obtain ⟨decided, shownFirst⟩ := answer value rfl
      refine ⟨tracked, grows, fun _ _ segment isSegment => ?_, fun result same => ?_⟩
      · exact Option.some.inj (isFirst.symm.trans isSegment) ▸ decided
      · rw [← Except.ok.inj same, ← shownFirst]
        simp [shown, split]

theorem valueOfKey_finished (depth : Nat) (known : m.progress? key = some (.finished value)) :
    r.valueOfKey depth key m = (.ok value, m) := by
  cases depth <;> simp [valueOfKey, known]

theorem valueOfKey_entered (depth : Nat) (entered : m.progress? key = some .entered) :
    r.valueOfKey depth key m = (.error (.circularReference (m.chain ++ [key])), m) := by
  cases depth <;> simp [valueOfKey, entered]

theorem valueOfKey_zero (unknown : m.progress? key = none) :
    r.valueOfKey 0 key m = (.error (.circularReference (m.chain ++ [key])), m) := by
  simp [valueOfKey, unknown]

theorem valueOfKey_succ (depth : Nat) (unknown : m.progress? key = none) :
    r.valueOfKey (depth + 1) key m =
      let (result, after) :=
        (r.planOf key).run (r.valueAtPath (r.valueOfKey depth)) (m.enter key)
      (result, after.leave key result) := by
  simp only [valueOfKey, unknown, mergeSections_eq, planOf]

theorem valueOfKey_resolves (only : r.OnlyReferences) (depth : Nat) (key : String)
    (configured : key ∈ r.configKeys) (m : Memory) (tracks : r.Tracks m)
    (linked : ∀ last ∈ m.chain.getLast?, r.Reads last key) :
    r.Resolves m key (r.valueOfKey depth key m) := by
  induction depth generalizing key m with
  | zero =>
    rcases known : m.progress? key with _ | ⟨_ | value⟩
    · rw [valueOfKey_zero known]
      exact ⟨tracks, .refl m, nofun⟩
    · rw [valueOfKey_entered 0 known]
      exact ⟨tracks, .refl m, nofun⟩
    · rw [valueOfKey_finished 0 known]
      exact ⟨tracks, .refl m, fun other same => by rw [known, Except.ok.inj same]⟩
  | succ depth ih =>
    rcases known : m.progress? key with _ | ⟨_ | value⟩
    · have entered := tracks.enter known configured linked
      -- Inside the key all questions come from its own settings.
      obtain ⟨tracked, grown, explained⟩ := run_shows (fun path inside middle still same =>
        valueAtPath_shows still fun other read => ih other (readKey?_mem read) middle still
          fun last isLast => by
            rw [same, Memory.chain_enter, List.getLast?_concat] at isLast
            exact Option.some.inj isLast ▸ ⟨path, inside, read⟩)
        (r.planOf key) (only.planOf key) entered rfl
      rw [valueOfKey_succ depth known]
      rcases ran : (r.planOf key).run (r.valueAtPath (r.valueOfKey depth)) (m.enter key)
        with ⟨error | value, after⟩
      · rw [ran] at tracked grown
        exact ⟨tracked.leave_error grown.chain error, grown.leave known (.error error), nofun⟩
      · rw [ran] at tracked grown explained
        obtain ⟨folded, decides⟩ := explained value rfl after tracked (.refl after)
        refine ⟨tracked.leave_ok grown.chain folded decides, grown.leave known (.ok value), ?_⟩
        intro other same
        rw [← Except.ok.inj same, Memory.progress?_leave_ok, if_pos rfl]
    · rw [valueOfKey_entered _ known]
      exact ⟨tracks, .refl m, nofun⟩
    · rw [valueOfKey_finished _ known]
      exact ⟨tracks, .refl m, fun other same => by rw [known, Except.ok.inj same]⟩

theorem collect_shows (only : r.OnlyReferences) (keys : List String) (tracks : r.Tracks m)
    (idle : m.chain = []) :
    r.Tracks (r.collect keys m).2 ∧ m.Grows (r.collect keys m).2 ∧
      ∀ entries, (r.collect keys m).1 = .ok entries →
        entries = keys.filterMap (fun key =>
          (r.shownSegment (r.collect keys m).2.settled key).map fun value => (key, value)) ∧
        ∀ key ∈ keys, r.DecidesSegment (r.collect keys m).2 key := by
  induction keys generalizing m with
  | nil => exact ⟨tracks, .refl m, fun entries ok => ⟨(Except.ok.inj ok).symm, by simp⟩⟩
  | cons key rest ih =>
    obtain ⟨tracked, grown, answer⟩ := segmentValue_shows key tracks fun other read =>
      valueOfKey_resolves only r.depth other (layerKey?_mem read) m tracks (by simp [idle])
    rcases found : r.find key m with ⟨error | value, middle⟩
    · have run : r.collect (key :: rest) m = (.error error, middle) := by simp [collect, found]
      simp only [find] at found
      rw [found] at tracked grown
      rw [run]
      exact ⟨tracked, grown, nofun⟩
    · have step := found
      simp only [find] at step
      rw [step] at tracked grown answer
      obtain ⟨later, grows, others⟩ := ih tracked (grown.chain.trans idle)
      obtain ⟨decided, shownKey⟩ := answer value rfl
      rcases ran : r.collect rest middle with ⟨error | values, after⟩
      · rw [ran] at later grows
        simp only [collect, found, ran]
        exact ⟨later, grown.trans grows, nofun⟩
      · rw [ran] at later grows others
        obtain ⟨entries, settled⟩ := others values rfl
        -- What the first key shows does not change while the others are collected.
        obtain ⟨decides, same⟩ := decided.mono grows tracked.valid later.valid
        simp only [collect, found, ran]
        refine ⟨later, grown.trans grows, fun result ok => ⟨?_, ?_⟩⟩
        · rw [← Except.ok.inj ok, List.filterMap_cons, same, shownKey, entries]
          cases value <;> rfl
        · exact List.forall_mem_cons.2 ⟨decides, settled⟩

end Basis

end UtilityCss.Theme
