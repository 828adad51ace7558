import Mathlib.Data.List.Perm.Subperm
import UtilityCss.Proofs.Theme.Replay

set_option autoImplicit false

namespace UtilityCss.Theme

namespace Plan

variable {α : Type}

theorem run_alike {stays : Memory → Memory → Prop} {kind : String → Prop}
    {asked also : String → Step (Option Value)} {plan : Plan α} (refers : plan.Refers kind)
    (answers : ∀ path, kind path → ∀ m other, stays m other →
      (also path other).1 = (asked path m).1 ∧ stays (asked path m).2 (also path other).2)
    {m other : Memory} (start : stays m other) :
    (plan.run also other).1 = (plan.run asked m).1 ∧
      stays (plan.run asked m).2 (plan.run also other).2 := by
  induction plan generalizing m other with
  | done value => exact ⟨rfl, start⟩
  | fail error => exact ⟨rfl, start⟩
  | ask path next ih =>
    obtain ⟨isKind, ends, -, goes⟩ := refers
    obtain ⟨same, still⟩ := answers path isKind m other start
    simp only [run]
    rw [same]
    cases (asked path m).1 with
    | error error =>
      rw [ends]
      exact ⟨rfl, still⟩
    | ok found => exact ih _ (goes found) still

end Plan

namespace Basis

variable {r also : Basis} {known : Table (Option Value)} {m other after last : Memory}
  {key segment path : String} {value : Option Value}

structure Alike (known : Table (Option Value)) (m other : Memory) : Prop where
  chain : other.chain = m.chain
  others : ∀ key, Table.get? key known = none → other.progress? key = m.progress? key
  consistent : Consistent known m
  consistentAlso : Consistent known other

theorem Alike.replays (alike : Alike known m other) (first : Replays known m after)
    (second : Replays known other last) : Alike known after last where
  chain := by rw [second.chain, first.chain, alike.chain]
  others key unlisted := by
    rw [second.others key unlisted, first.others key unlisted, alike.others key unlisted]
  consistent := first.consistent
  consistentAlso := second.consistent

theorem Alike.isEntered (alike : Alike known m other) (key : String) :
    other.isEntered key = m.isEntered key := by
  -- A listed key is not being computed in either of the memories.
  rw [Bool.eq_iff_iff, Memory.isEntered_iff, Memory.isEntered_iff]
  cases listed : Table.get? key known with
  | none => rw [alike.others key listed]
  | some value =>
    have isListed : (Table.get? key known).isSome := by simp [listed]
    simp [alike.consistent.not_entered isListed, alike.consistentAlso.not_entered isListed]

theorem Consistent.change (consistent : Consistent known m)
    (same : ∀ other, other ≠ key → after.progress? other = m.progress? other)
    (unlisted : Table.get? key known = none) : Consistent known after := by
  intro other value listed
  rw [same other]
  · exact consistent other value listed
  · rintro rfl
    simp [unlisted] at listed

theorem Alike.enter (alike : Alike known m other) (unlisted : Table.get? key known = none) :
    Alike known (m.enter key) (other.enter key) where
  chain := by rw [Memory.chain_enter, Memory.chain_enter, alike.chain]
  others next absent := by
    rw [Memory.progress?_enter, Memory.progress?_enter, alike.others next absent]
  consistent := alike.consistent.change
    (fun next different => by rw [Memory.progress?_enter, if_neg different]) unlisted
  consistentAlso := alike.consistentAlso.change
    (fun next different => by rw [Memory.progress?_enter, if_neg different]) unlisted

theorem Alike.leave (alike : Alike known m other) (unlisted : Table.get? key known = none)
    (result : Except SettingsError (Option Value)) :
    Alike known (m.leave key result) (other.leave key result) where
  chain := by rw [Memory.chain_leave, Memory.chain_leave, alike.chain]
  others next absent := by
    cases result <;> simp only [Memory.progress?_leave_ok, Memory.progress?_leave_error,
      alike.others next absent]
  consistent := alike.consistent.change
    (fun _ different => Memory.progress?_leave_of_ne m result different) unlisted
  consistentAlso := alike.consistentAlso.change
    (fun _ different => Memory.progress?_leave_of_ne other result different) unlisted

structure SameKeys (r also : Basis) : Prop where
  tokens : also.tokens = r.tokens
  configKeys : also.configKeys = r.configKeys

namespace SameKeys

theorem layerKey? (same : SameKeys r also) : also.layerKey? = r.layerKey? := by
  funext segment
  simp only [Basis.layerKey?, same.configKeys]

theorem readKey? (same : SameKeys r also) : also.readKey? = r.readKey? := by
  funext path
  simp only [Basis.readKey?, same.layerKey?]

theorem isRaw (same : SameKeys r also) : also.IsRaw = r.IsRaw := by
  funext path
  simp only [Basis.IsRaw, same.layerKey?]

theorem tokenTable? (same : SameKeys r also) : also.tokenTable? = r.tokenTable? := by
  funext segment
  simp only [Basis.tokenTable?, same.tokens]

theorem shown (same : SameKeys r also) : also.shown = r.shown := by
  funext known path
  simp only [Basis.shown, shownSegment, same.layerKey?, same.tokenTable?]

theorem depth (same : SameKeys r also) : also.depth = r.depth := by
  simp only [Basis.depth, same.configKeys]

theorem keys (same : SameKeys r also) : also.keys = r.keys := by
  simp only [Basis.keys, same.configKeys, same.tokens]

end SameKeys

theorem segmentValue_alike (same : SameKeys r also) (segment : String)
    {ofKey ofAlso : String → Step (Option Value)} (alike : Alike known m other)
    (answers : ∀ key, r.layerKey? segment = some key →
      (ofAlso key other).1 = (ofKey key m).1 ∧ Alike known (ofKey key m).2 (ofAlso key other).2) :
    (also.segmentValue ofAlso segment other).1 = (r.segmentValue ofKey segment m).1 ∧
      Alike known (r.segmentValue ofKey segment m).2 (also.segmentValue ofAlso segment other).2 := by
  have layers : also.configKey? segment other = r.configKey? segment m := by
    simp only [configKey?, same.configKeys, alike.isEntered]
  unfold segmentValue
  rw [layers, same.tokenTable?]
  rcases configKey?_cases r segment m with read | ⟨key, -, -, -, skipped⟩
  · rw [read]
    cases found : r.layerKey? segment with
    | none => exact ⟨rfl, alike⟩
    | some key =>
      obtain ⟨equal, still⟩ := answers key found
      dsimp only
      rcases first : ofKey key m with ⟨error | value, after⟩ <;>
        rcases second : ofAlso key other with ⟨error | value, last⟩ <;>
        simp_all
  · rw [skipped]
    exact ⟨rfl, alike⟩

theorem valueAtPath_alike (same : SameKeys r also) (path : String)
    {ofKey ofAlso : String → Step (Option Value)} (alike : Alike known m other)
    (answers : ∀ key, r.readKey? path = some key →
      (ofAlso key other).1 = (ofKey key m).1 ∧ Alike known (ofKey key m).2 (ofAlso key other).2) :
    (also.valueAtPath ofAlso path other).1 = (r.valueAtPath ofKey path m).1 ∧
      Alike known (r.valueAtPath ofKey path m).2 (also.valueAtPath ofAlso path other).2 := by
  unfold valueAtPath
  rcases split : splitKeyPath path with fault | ⟨_ | ⟨first, rest⟩⟩
  · exact ⟨rfl, alike⟩
  · exact ⟨rfl, alike⟩
  · have isFirst : firstSegment? path = some first := by simp [firstSegment?, split]
    rw [readKey?_of_first isFirst] at answers
    obtain ⟨equal, still⟩ := segmentValue_alike same first alike answers
    dsimp only
    rcases one : r.segmentValue ofKey first m with ⟨error | value, after⟩ <;>
      rcases two : also.segmentValue ofAlso first other with ⟨error | value, last⟩ <;>
      simp_all

structure Drops (r also : Basis) (known : Table (Option Value)) (key : String)
    (first : Plan (Option Value)) (part : Plan (List (String × Value)))
    (last : Plan (Option Value)) : Prop where
  whole : r.planOf key = first.andThen fun _ => part.andThen fun _ => last
  rest : also.planOf key = first.andThen fun _ => last
  refersFirst : first.Refers (· ∈ r.pathsOf key)
  refersPart : part.Refers (· ∈ r.pathsOf key)
  refersLast : last.Refers (· ∈ r.pathsOf key)
  computed : ∃ values, part.answered (r.shown known) = .ok values
  reads : ∀ path ∈ part.asked (r.shown known), ∀ next, r.readKey? path = some next →
    (Table.get? next known).isSome ∨ r.IsRaw path ∧ next = key

structure Similar (r also : Basis) (known : Table (Option Value)) : Prop extends
    SameKeys r also where
  only : r.OnlyReferences
  onlyAlso : also.OnlyReferences
  replayable : r.Replayable known
  replayableAlso : also.Replayable known
  configured : ∀ key value, Table.get? key known = some value → key ∈ r.configKeys
  plans : ∀ key ∈ r.configKeys, Table.get? key known = none →
    also.planOf key = r.planOf key ∨ ∃ first part last, Drops r also known key first part last

theorem Replayable.transfer (replayable : r.Replayable known) (same : SameKeys r also)
    (plans : ∀ key value, Table.get? key known = some value → also.planOf key = r.planOf key) :
    also.Replayable known := by
  induction replayable with
  | nil => exact .nil
  | @cons key value known rest fresh yields ih =>
    have plan : also.planOf key = r.planOf key := plans key value (by simp [Table.get?])
    refine .cons (ih fun other found isFound => ?_) fresh ⟨?_, ?_⟩
    · apply plans other found
      rw [Table.get?_cons_of_fresh fresh (by simp [isFound]), isFound]
    · rw [plan, same.shown]
      exact yields.answered
    · rw [plan, same.shown, same.readKey?, same.isRaw]
      exact yields.reads

theorem Replayable.distinct (replayable : r.Replayable known) : (known.map Prod.fst).Nodup := by
  induction replayable with
  | nil => exact List.nodup_nil
  | cons rest fresh yields ih =>
    exact List.nodup_cons.2 ⟨Table.get?_eq_none_iff.1 fresh, ih⟩

theorem Similar.length_le (similar : Similar r also known) (tracks : r.Tracks m)
    (consistent : Consistent known m) {depth : Nat} (deep : r.depth ≤ depth + m.chain.length) :
    known.length ≤ depth := by
  -- The listed keys and those of the chain are distinct keys of the layers.
  have apart : (known.map Prod.fst ++ m.chain).Nodup := by
    refine List.nodup_append.2 ⟨similar.replayable.distinct, tracks.valid.nodup, ?_⟩
    rintro key listed _ inside rfl
    exact consistent.not_entered (Table.get?_isSome_iff.2 listed) ((tracks.valid.entered key).2 inside)
  have within : known.map Prod.fst ++ m.chain ⊆ r.configKeys := by
    intro key member
    rcases List.mem_append.1 member with listed | inside
    · obtain ⟨value, found⟩ := Option.isSome_iff_exists.1 (Table.get?_isSome_iff.2 listed)
      exact similar.configured key value found
    · exact tracks.configured key inside
  have count := (List.subperm_of_subset apart within).length_le
  rw [List.length_append, List.length_map] at count
  unfold Basis.depth at deep
  omega

structure Paired (r : Basis) (known : Table (Option Value)) (chain : List String)
    (m other : Memory) : Prop where
  alike : Alike known m other
  tracks : r.Tracks m
  chain : m.chain = chain

def SameValues (r also : Basis) (known : Table (Option Value)) (depth : Nat) : Prop :=
  ∀ key ∈ r.configKeys, ∀ m other, Alike known m other → r.Tracks m →
    (∀ last ∈ m.chain.getLast?, r.Reads last key) → r.depth ≤ depth + m.chain.length →
      (also.valueOfKey depth key other).1 = (r.valueOfKey depth key m).1 ∧
        Alike known (r.valueOfKey depth key m).2 (also.valueOfKey depth key other).2

theorem ask_shows (only : r.OnlyReferences) (depth : Nat) {outer : List String}
    (member : path ∈ r.pathsOf key) (tracks : r.Tracks m) (chain : m.chain = outer ++ [key]) :
    (∀ next, r.readKey? path = some next → ∀ last ∈ m.chain.getLast?, r.Reads last next) ∧
      r.Shows m path (r.valueAtPath (r.valueOfKey depth) path m) := by
  have linked : ∀ next, r.readKey? path = some next → ∀ last ∈ m.chain.getLast?,
      r.Reads last next := by
    intro next read last isLast
    rw [chain, List.getLast?_concat] at isLast
    exact Option.some.inj isLast ▸ ⟨path, member, read⟩
  exact ⟨linked, valueAtPath_shows tracks fun next read =>
    valueOfKey_resolves only depth next (readKey?_mem read) m tracks (linked next read)⟩

theorem Paired.ask (similar : Similar r also known) {depth : Nat} {outer : List String}
    (values : SameValues r also known depth) (deep : r.depth ≤ depth + (outer.length + 1))
    (member : path ∈ r.pathsOf key) (paired : Paired r known (outer ++ [key]) m other) :
    (also.valueAtPath (also.valueOfKey depth) path other).1 =
        (r.valueAtPath (r.valueOfKey depth) path m).1 ∧
      Paired r known (outer ++ [key]) (r.valueAtPath (r.valueOfKey depth) path m).2
        (also.valueAtPath (also.valueOfKey depth) path other).2 := by
  obtain ⟨linked, shows⟩ := ask_shows similar.only depth member paired.tracks paired.chain
  obtain ⟨same, alike⟩ := valueAtPath_alike similar.toSameKeys path paired.alike
    fun next read => values next (readKey?_mem read) m other paired.alike paired.tracks
      (linked next read) (by rw [paired.chain, List.length_append]; exact deep)
  exact ⟨same, alike, shows.tracks, shows.grows.chain.trans paired.chain⟩

theorem Paired.run {α : Type} (similar : Similar r also known) {depth : Nat} {outer : List String}
    (values : SameValues r also known depth) (deep : r.depth ≤ depth + (outer.length + 1))
    {plan : Plan α} (refers : plan.Refers (· ∈ r.pathsOf key))
    (paired : Paired r known (outer ++ [key]) m other) :
    (plan.run (also.valueAtPath (also.valueOfKey depth)) other).1 =
        (plan.run (r.valueAtPath (r.valueOfKey depth)) m).1 ∧
      Paired r known (outer ++ [key]) (plan.run (r.valueAtPath (r.valueOfKey depth)) m).2
        (plan.run (also.valueAtPath (also.valueOfKey depth)) other).2 :=
  Plan.run_alike refers (fun _ member _ _ still => still.ask similar values deep member) paired

theorem Paired.skip (similar : Similar r also known) {depth : Nat} {outer : List String}
    (deep : r.depth ≤ depth + (outer.length + 1)) {first last : Plan (Option Value)}
    {part : Plan (List (String × Value))} (drops : Drops r also known key first part last)
    (paired : Paired r known (outer ++ [key]) m other) :
    ∃ values after, part.run (r.valueAtPath (r.valueOfKey depth)) m = (.ok values, after) ∧
      Paired r known (outer ++ [key]) after other := by
  obtain ⟨values, computed⟩ := drops.computed
  have entered : m.progress? key = some .entered :=
    (paired.tracks.valid.entered key).2 (by simp [paired.chain])
  have room : known.length ≤ depth := by
    apply similar.length_le paired.tracks paired.alike.consistent
    rw [paired.chain, List.length_append]
    exact deep
  have within : ∀ path ∈ part.asked (r.shown known), r.ReadsWithin known m path := by
    intro path member next read
    rcases drops.reads path member next read with listed | ⟨raw, rfl⟩
    · exact .inl listed
    · exact .inr ⟨raw, entered⟩
  obtain ⟨after, ran, replays⟩ := run_replays drops.refersPart computed within
    paired.alike.consistent fun middle still next value listed =>
      similar.replayable.valueOfKey similar.only listed still.consistent room
  obtain ⟨tracks, grows, -⟩ := run_shows (fun path member middle tracks same =>
    (ask_shows similar.only depth member tracks (same.trans paired.chain)).2)
      part drops.refersPart paired.tracks rfl
  rw [ran] at tracks grows
  exact ⟨values, after, ran, paired.alike.replays replays (.refl paired.alike.consistentAlso),
    tracks, grows.chain.trans paired.chain⟩

theorem Paired.plan (similar : Similar r also known) {depth : Nat} {outer : List String}
    (values : SameValues r also known depth) (deep : r.depth ≤ depth + (outer.length + 1))
    (configured : key ∈ r.configKeys) (unlisted : Table.get? key known = none)
    (paired : Paired r known (outer ++ [key]) m other) :
    ((also.planOf key).run (also.valueAtPath (also.valueOfKey depth)) other).1 =
        ((r.planOf key).run (r.valueAtPath (r.valueOfKey depth)) m).1 ∧
      Paired r known (outer ++ [key])
        ((r.planOf key).run (r.valueAtPath (r.valueOfKey depth)) m).2
        ((also.planOf key).run (also.valueAtPath (also.valueOfKey depth)) other).2 := by
  rcases similar.plans key configured unlisted with equal | ⟨first, part, last, drops⟩
  · rw [equal]
    exact paired.run similar values deep (similar.only.planOf key)
  · obtain ⟨same, still⟩ := paired.run similar values deep drops.refersFirst
    rw [drops.whole, drops.rest, Plan.run_andThen, Plan.run_andThen]
    rcases one : first.run (r.valueAtPath (r.valueOfKey depth)) m with ⟨error | value, after⟩
    · rcases two : first.run (also.valueAtPath (also.valueOfKey depth)) other with
        ⟨fault | value, before⟩
      · rw [one, two] at same still
        exact ⟨congrArg Except.error (Except.error.inj same), still⟩
      · rw [one, two] at same
        cases same
    · rcases two : first.run (also.valueAtPath (also.valueOfKey depth)) other with
        ⟨fault | found, before⟩
      · rw [one, two] at same
        cases same
      · rw [one, two] at still
        -- The part that one of the plans lacks leaves the states alike.
        obtain ⟨computed, later, ran, afterPart⟩ := still.skip similar deep drops
        dsimp only
        rw [Plan.run_andThen, ran]
        exact afterPart.run similar values deep drops.refersLast

theorem Similar.sameValues (similar : Similar r also known) (depth : Nat) :
    SameValues r also known depth := by
  induction depth with
  | zero =>
    -- The chain would be longer than there are keys.
    intro key configured m other alike tracks linked deep
    have short : m.chain.length ≤ r.configKeys.length :=
      (List.subperm_of_subset tracks.valid.nodup tracks.configured).length_le
    unfold Basis.depth at deep
    omega
  | succ depth ih =>
    intro key configured m other alike tracks linked deep
    cases listed : Table.get? key known with
    | some value =>
      -- The key may be finished in one state only, but it has the same value in both.
      have room := similar.length_le tracks alike.consistent deep
      obtain ⟨after, one, first⟩ :=
        similar.replayable.valueOfKey similar.only listed alike.consistent room
      obtain ⟨last, two, second⟩ :=
        similar.replayableAlso.valueOfKey similar.onlyAlso listed alike.consistentAlso room
      rw [one, two]
      exact ⟨rfl, alike.replays first second⟩
    | none =>
      have same := alike.others key listed
      rcases progress : m.progress? key with _ | ⟨_ | value⟩
      · rw [progress] at same
        have paired : Paired r known (m.chain ++ [key]) (m.enter key) (other.enter key) :=
          ⟨alike.enter listed, tracks.enter progress configured linked, rfl⟩
        obtain ⟨equal, still⟩ := paired.plan similar ih (by omega) configured listed
        rw [valueOfKey_succ depth progress, valueOfKey_succ depth same]
        dsimp only
        rw [equal]
        exact ⟨rfl, still.alike.leave listed _⟩
      · rw [progress] at same
        rw [valueOfKey_entered _ progress, valueOfKey_entered _ same, alike.chain]
        exact ⟨rfl, alike⟩
      · rw [progress] at same
        rw [valueOfKey_finished _ progress, valueOfKey_finished _ same]
        exact ⟨rfl, alike⟩

theorem Similar.collect (similar : Similar r also known) (keys : List String)
    (alike : Alike known m other) (tracks : r.Tracks m) (idle : m.chain = []) :
    (also.collect keys other).1 = (r.collect keys m).1 := by
  induction keys generalizing m other with
  | nil => rfl
  | cons key rest ih =>
    obtain ⟨tracked, grown, -⟩ := segmentValue_shows key tracks fun next read =>
      valueOfKey_resolves similar.only r.depth next (layerKey?_mem read) m tracks (by simp [idle])
    obtain ⟨same, still⟩ := segmentValue_alike similar.toSameKeys key alike fun next read =>
      similar.sameValues r.depth next (layerKey?_mem read) m other alike tracks (by simp [idle])
        (by simp [idle])
    have later := ih still tracked (grown.chain.trans idle)
    simp only [Basis.collect, find, similar.depth]
    rcases one : r.segmentValue (r.valueOfKey r.depth) key m with ⟨error | value, after⟩
    · rcases two : also.segmentValue (also.valueOfKey r.depth) key other with ⟨fault | found, last⟩
      · rw [one, two] at same
        rw [Except.error.inj same]
      · rw [one, two] at same
        cases same
    · rcases two : also.segmentValue (also.valueOfKey r.depth) key other with ⟨fault | found, last⟩
      · rw [one, two] at same
        cases same
      · rw [one, two] at same later
        dsimp only at later ⊢
        rw [Except.ok.inj same]
        rcases first : r.collect rest after with ⟨_ | _, _⟩ <;>
          rcases second : also.collect rest last with ⟨_ | _, _⟩ <;>
          simp_all

end Basis

end UtilityCss.Theme
