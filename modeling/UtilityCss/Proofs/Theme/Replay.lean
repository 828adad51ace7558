import UtilityCss.Proofs.Theme.Settling

set_option autoImplicit false

namespace UtilityCss.Theme

open Relation

theorem Plan.run_eq_answered {α : Type} {stays : Memory → Prop}
    {asked : String → Step (Option Value)} {value? : String → Option Value} (plan : Plan α)
    (answers : ∀ path ∈ plan.asked value?, ∀ m, stays m →
      (asked path m).1 = .ok (value? path) ∧ stays (asked path m).2)
    {m : Memory} (start : stays m) :
    (plan.run asked m).1 = plan.answered value? ∧ stays (plan.run asked m).2 := by
  induction plan generalizing m with
  | done value => exact ⟨rfl, start⟩
  | fail error => exact ⟨rfl, start⟩
  | ask path next ih =>
    simp only [Plan.asked, List.forall_mem_cons] at answers
    obtain ⟨answer, still⟩ := answers.1 m start
    rcases found : asked path m with ⟨result, after⟩
    rw [found] at answer still
    obtain rfl : result = .ok (value? path) := answer
    simpa [Plan.run, Plan.answered, found] using ih _ answers.2 still

namespace Basis

variable (r : Basis)

def ReadsWithin (known : Table (Option Value)) (m : Memory) (path : String) : Prop :=
  ∀ key, r.readKey? path = some key →
    (Table.get? key known).isSome ∨ r.IsRaw path ∧ m.progress? key = some .entered

structure Yields (known : Table (Option Value)) (key : String) (value : Option Value) : Prop where
  answered : (r.planOf key).answered (r.shown known) = .ok value
  reads : ∀ path ∈ (r.planOf key).asked (r.shown known), ∀ other, r.readKey? path = some other →
    (Table.get? other known).isSome ∨ r.IsRaw path ∧ other = key

inductive Replayable : Table (Option Value) → Prop
  | nil : Replayable []
  | cons {key : String} {value : Option Value} {known : Table (Option Value)}
      (rest : Replayable known) (fresh : Table.get? key known = none)
      (yields : r.Yields known key value) : Replayable ((key, value) :: known)

variable {r} {known : Table (Option Value)} {m before middle after : Memory}
  {key path : String} {value : Option Value}

def Consistent (known : Table (Option Value)) (m : Memory) : Prop :=
  ∀ key value, Table.get? key known = some value →
    m.progress? key = none ∨ m.progress? key = some (.finished value)

structure Replays (known : Table (Option Value)) (before after : Memory) : Prop where
  chain : after.chain = before.chain
  others : ∀ key, Table.get? key known = none → after.progress? key = before.progress? key
  consistent : Consistent known after

theorem Replays.refl (consistent : Consistent known m) : Replays known m m :=
  ⟨rfl, fun _ _ => rfl, consistent⟩

theorem Replays.trans (first : Replays known before middle) (rest : Replays known middle after) :
    Replays known before after where
  chain := rest.chain.trans first.chain
  others key absent := (rest.others key absent).trans (first.others key absent)
  consistent := rest.consistent

theorem Replays.entered (replays : Replays known before after) (consistent : Consistent known before)
    (entered : before.progress? key = some .entered) : after.progress? key = some .entered := by
  cases listed : Table.get? key known with
  | none => rw [replays.others key listed, entered]
  | some value => rcases consistent key value listed with still | still <;> simp [still] at entered

theorem Consistent.tail (consistent : Consistent ((key, value) :: known) m)
    (fresh : Table.get? key known = none) : Consistent known m := by
  intro other found listed
  apply consistent other found
  rw [Table.get?_cons_of_fresh fresh (by simp [listed]), listed]

theorem Replays.cons (replays : Replays known before after)
    (consistent : Consistent ((key, value) :: known) before)
    (fresh : Table.get? key known = none) : Replays ((key, value) :: known) before after where
  chain := replays.chain
  others other absent := by
    apply replays.others other
    rw [Table.get?] at absent
    split_ifs at absent
    exact absent
  consistent other found listed := by
    by_cases same : other = key
    · subst same
      rw [replays.others other fresh]
      exact consistent other found listed
    · rw [Table.get?, if_neg same] at listed
      exact replays.consistent other found listed

theorem Replays.leave (replays : Replays known (m.enter key) after) :
    Replays ((key, value) :: known) m (after.leave key (.ok value)) where
  chain := by
    rw [Memory.chain_leave, replays.chain, Memory.chain_enter, List.dropLast_concat]
  others other absent := by
    rw [Table.get?] at absent
    split_ifs at absent with same
    rw [Memory.progress?_leave_ok, if_neg same, replays.others other absent,
      Memory.progress?_enter, if_neg same]
  consistent other found listed := by
    rw [Memory.progress?_leave_ok]
    rw [Table.get?] at listed
    split_ifs with same
    · rw [if_pos same] at listed
      exact .inr (by rw [Option.some.inj listed])
    · rw [if_neg same] at listed
      exact replays.consistent other found listed

theorem configKey?_eq_layerKey? {segment : String}
    (outside : ∀ key, r.layerKey? segment = some key → segment ≠ key →
      m.progress? key ≠ some .entered) : r.configKey? segment m = r.layerKey? segment := by
  rcases configKey?_cases r segment m with same | ⟨key, read, raw, entered, -⟩
  · exact same
  · exact absurd entered (outside key read raw)

theorem configKey?_of_entered {segment : String} (read : r.layerKey? segment = some key)
    (raw : segment ≠ key) (entered : m.progress? key = some .entered) :
    r.configKey? segment m = none := by
  have layers := read
  unfold layerKey? at layers
  split_ifs at layers with configured aliased
  · exact absurd (Option.some.inj layers) raw
  · obtain rfl := Option.some.inj layers
    simp [configKey?, configured, Memory.isEntered_iff.2 entered]

theorem isRaw_iff {segment : String} (first : firstSegment? path = some segment)
    (read : r.layerKey? segment = some key) : r.IsRaw path ↔ segment ≠ key := by
  constructor
  · rintro ⟨other, next, isFirst, isRead, raw⟩
    obtain rfl := Option.some.inj (first.symm.trans isFirst)
    obtain rfl := Option.some.inj (read.symm.trans isRead)
    exact raw
  · exact fun raw => ⟨segment, key, first, read, raw⟩

theorem Consistent.not_entered (consistent : Consistent known m)
    (listed : (Table.get? key known).isSome) : m.progress? key ≠ some .entered := by
  obtain ⟨value, found⟩ := Option.isSome_iff_exists.1 listed
  rcases consistent key value found with still | still <;> simp [still]

theorem segmentValue_replays {segment : String} {ofKey : String → Step (Option Value)}
    (consistent : Consistent known m)
    (within : ∀ key, r.layerKey? segment = some key →
      (Table.get? key known).isSome ∨ segment ≠ key ∧ m.progress? key = some .entered)
    (computes : ∀ key value, Table.get? key known = some value → ∃ after,
      ofKey key m = (.ok value, after) ∧ Replays known m after) :
    ∃ after, r.segmentValue ofKey segment m = (.ok (r.shownSegment known segment), after) ∧
      Replays known m after := by
  unfold segmentValue shownSegment
  cases read : r.layerKey? segment with
  | none =>
    rw [configKey?_eq_layerKey? (by simp [read]), read]
    exact ⟨m, by simp [overlay?_none], .refl consistent⟩
  | some key =>
    rcases within key read with listed | ⟨raw, entered⟩
    · obtain ⟨value, isValue⟩ := Option.isSome_iff_exists.1 listed
      obtain ⟨after, answer, replays⟩ := computes key value isValue
      have outside : ∀ other, r.layerKey? segment = some other → segment ≠ other →
          m.progress? other ≠ some .entered := fun other same _ =>
        Option.some.inj (read.symm.trans same) ▸ consistent.not_entered listed
      rw [configKey?_eq_layerKey? outside, read]
      exact ⟨after, by simp [answer, isValue], replays⟩
    · have unlisted : Table.get? key known = none := by
        rw [← Option.not_isSome_iff_eq_none]
        exact fun listed => consistent.not_entered listed entered
      rw [configKey?_of_entered read raw entered]
      exact ⟨m, by simp [unlisted, overlay?_none], .refl consistent⟩

theorem first_of_shown (found : (r.shown known path).isSome) :
    ∃ first rest, splitKeyPath path = .ok (first :: rest) ∧ firstSegment? path = some first := by
  unfold shown at found
  split at found
  next first rest split => exact ⟨first, rest, split, by simp [firstSegment?, split]⟩
  next => simp at found

theorem valueAtPath_replays {ofKey : String → Step (Option Value)}
    (consistent : Consistent known m) (within : r.ReadsWithin known m path)
    (found : (r.shown known path).isSome)
    (computes : ∀ key value, Table.get? key known = some value → ∃ after,
      ofKey key m = (.ok value, after) ∧ Replays known m after) :
    ∃ after, r.valueAtPath ofKey path m = (.ok (r.shown known path), after) ∧
      Replays known m after := by
  obtain ⟨first, rest, split, isFirst⟩ := first_of_shown found
  have layers : ∀ key, r.layerKey? first = some key →
      (Table.get? key known).isSome ∨ first ≠ key ∧ m.progress? key = some .entered := by
    intro key read
    rw [← isRaw_iff isFirst read]
    exact within key ((readKey?_of_first isFirst).trans read)
  obtain ⟨after, answer, replays⟩ := segmentValue_replays consistent layers computes
  exact ⟨after, by simp [valueAtPath, split, answer, shown], replays⟩

theorem ReadsWithin.mono (within : r.ReadsWithin known before path)
    (consistent : Consistent known before) (replays : Replays known before after) :
    r.ReadsWithin known after path := by
  intro key read
  rcases within key read with listed | ⟨raw, entered⟩
  · exact .inl listed
  · exact .inr ⟨raw, replays.entered consistent entered⟩

theorem run_replays {α : Type} {plan : Plan α} {value : α} {ofKey : String → Step (Option Value)}
    {kind : String → Prop} (refers : plan.Refers kind)
    (succeeds : plan.answered (r.shown known) = .ok value)
    (within : ∀ path ∈ plan.asked (r.shown known), r.ReadsWithin known m path)
    (consistent : Consistent known m)
    (computes : ∀ middle, Replays known m middle → ∀ key value, Table.get? key known = some value →
      ∃ after, ofKey key middle = (.ok value, after) ∧ Replays known middle after) :
    ∃ after, plan.run (r.valueAtPath ofKey) m = (.ok value, after) ∧ Replays known m after := by
  have answers : ∀ path ∈ plan.asked (r.shown known), ∀ middle, Replays known m middle →
      (r.valueAtPath ofKey path middle).1 = .ok (r.shown known path) ∧
        Replays known m (r.valueAtPath ofKey path middle).2 := by
    intro path member middle still
    obtain ⟨after, answer, replays⟩ := valueAtPath_replays still.consistent
      ((within path member).mono consistent still) (refers.isSome succeeds path member)
      (computes middle still)
    rw [answer]
    exact ⟨rfl, still.trans replays⟩
  obtain ⟨result, replays⟩ := plan.run_eq_answered answers (.refl consistent)
  exact ⟨_, Prod.ext (result.trans succeeds) rfl, replays⟩

theorem Replayable.valueOfKey (replayable : r.Replayable known) (only : r.OnlyReferences)
    (found : Table.get? key known = some value) (consistent : Consistent known m) {depth : Nat}
    (deep : known.length ≤ depth) :
    ∃ after, r.valueOfKey depth key m = (.ok value, after) ∧ Replays known m after := by
  -- Inside a key only later keys of the list are asked for.
  induction replayable generalizing key value m depth with
  | nil => simp [Table.get?] at found
  | @cons first last known rest fresh yields ih =>
    have later := consistent.tail fresh
    by_cases same : key = first
    · obtain rfl : last = value := by simpa [Table.get?, same] using found
      subst same
      rcases consistent key last found with unknown | finished
      · obtain ⟨depth, rfl⟩ : ∃ n, depth = n + 1 := ⟨depth - 1, by simp at deep; omega⟩
        have inside : Consistent known (m.enter key) := fun other value listed => by
          have different : other ≠ key := by
            rintro rfl
            simp [fresh] at listed
          rw [Memory.progress?_enter, if_neg different]
          exact later other value listed
        have later : ∀ middle, Replays known (m.enter key) middle → ∀ other value,
            Table.get? other known = some value → ∃ after,
              r.valueOfKey depth other middle = (.ok value, after) ∧
                Replays known middle after :=
          fun middle still other value listed => ih listed still.consistent (by simpa using deep)
        have within : ∀ path ∈ (r.planOf key).asked (r.shown known),
            r.ReadsWithin known (m.enter key) path := by
          intro path member other read
          rcases yields.reads path member other read with listed | ⟨raw, rfl⟩
          · exact .inl listed
          · exact .inr ⟨raw, by rw [Memory.progress?_enter, if_pos rfl]⟩
        obtain ⟨after, run, replays⟩ :=
          run_replays (only.planOf key) yields.answered within inside later
        refine ⟨after.leave key (.ok last), ?_, replays.leave⟩
        rw [valueOfKey_succ depth unknown, run]
      · exact ⟨m, valueOfKey_finished depth finished, .refl consistent⟩
    · rw [Table.get?, if_neg same] at found
      obtain ⟨after, answer, replays⟩ := ih found later (Nat.le_of_succ_le deep)
      exact ⟨after, answer, replays.cons consistent fresh⟩

theorem Replayable.collect (replayable : r.Replayable known) (only : r.OnlyReferences)
    (deep : known.length ≤ r.depth) (keys : List String)
    (within : ∀ key ∈ keys, ∀ other, r.layerKey? key = some other →
      (Table.get? other known).isSome)
    (consistent : Consistent known m) :
    ∃ after, r.collect keys m = (.ok (keys.filterMap fun key =>
      (r.shownSegment known key).map fun value => (key, value)), after) ∧
      Replays known m after := by
  induction keys generalizing m with
  | nil => exact ⟨m, rfl, .refl consistent⟩
  | cons key rest ih =>
    obtain ⟨first, others⟩ := List.forall_mem_cons.1 within
    obtain ⟨middle, found, replays⟩ :=
      segmentValue_replays consistent (fun other read => .inl (first other read))
        fun other value listed => replayable.valueOfKey only listed consistent deep
    obtain ⟨after, ran, later⟩ := ih others replays.consistent
    refine ⟨after, ?_, replays.trans later⟩
    rw [Basis.collect]
    simp only [find, found, ran, List.filterMap_cons]
    cases r.shownSegment known key <;> rfl

theorem Replayable.yields (replayable : r.Replayable known)
    (found : Table.get? key known = some value) :
    r.Yields (Table.behind key known) key value := by
  induction replayable with
  | nil => simp [Table.get?] at found
  | @cons first last known rest fresh yields ih =>
    by_cases same : key = first
    · obtain rfl : last = value := by simpa [Table.get?, same] using found
      subst same
      rw [Table.behind, if_pos rfl]
      exact yields
    · rw [Table.get?, if_neg same] at found
      rw [Table.behind, if_neg same]
      exact ih found

-- A plan depends on the keys that its questions read, and on no others.
theorem answered_of_reads {α : Type} {plan : Plan α} {other : Table (Option Value)}
    (same : ∀ path ∈ plan.asked (r.shown known), ∀ next, r.readKey? path = some next →
      Table.get? next other = Table.get? next known) :
    plan.answered (r.shown known) = plan.answered (r.shown other) ∧
      plan.asked (r.shown known) = plan.asked (r.shown other) := by
  apply Plan.answered_congr
  intro path member
  apply shown_congr
  intro segment first
  apply shownSegment_congr
  intro next read
  rw [same path member next ((readKey?_of_first first).trans read)]

theorem Yields.congr {other : Table (Option Value)} (yields : r.Yields known key value)
    (same : ∀ path ∈ (r.planOf key).asked (r.shown known), ∀ next, r.readKey? path = some next →
      Table.get? next other = Table.get? next known) : r.Yields other key value := by
  have agree := answered_of_reads same
  refine ⟨agree.1 ▸ yields.answered, ?_⟩
  intro path member next read
  rw [← agree.2] at member
  rw [same path member next read]
  exact yields.reads path member next read

def Early (r : Basis) (key path : String) : Prop :=
  ∀ other, r.readKey? path = some other → r.IsRaw path → ReflTransGen r.Reads other key →
    other = key

theorem Settled.replayable {keep : String → Bool} (settled : r.Settled known)
    (only : r.OnlyReferences)
    (closed : ∀ key, keep key → ∀ path ∈ r.pathsOf key, r.Early key path ∧
      ∀ other, r.readKey? path = some other → (Table.get? other known).isSome → keep other) :
    r.Replayable (known.filter fun entry => keep entry.1) := by
  induction settled with
  | nil => exact .nil
  | @cons key value known rest configured fresh folded reads ih =>
    -- A key that is kept reads nothing that is left out.
    have keeps : ∀ next, keep next → ∀ path ∈ r.pathsOf next, ∀ other,
        r.readKey? path = some other → (Table.get? other known).isSome → keep other :=
      fun next kept path member other read listed =>
        (closed next kept path member).2 other read
          ((Table.get?_cons_of_fresh fresh listed).symm ▸ listed)
    have tail := ih fun next kept path member =>
      ⟨(closed next kept path member).1, keeps next kept path member⟩
    cases kept : keep key with
    | false => simpa [List.filter_cons, kept] using tail
    | true =>
      have yields : r.Yields known key value := by
        refine ⟨folded, ?_⟩
        intro path member other read
        rcases reads path member other read with listed | ⟨raw, leads⟩
        · exact .inl listed
        · have early := (closed key kept path ((only.planOf key).asked _ path member)).1
          exact .inr ⟨raw, early other read raw leads⟩
      rw [List.filter_cons, if_pos kept]
      refine .cons tail ?_ (yields.congr fun path member next read => ?_)
      · rw [Table.get?_filter, if_pos kept, fresh]
      · rw [Table.get?_filter]
        rcases yields.reads path member next read with listed | ⟨-, rfl⟩
        · rw [if_pos (keeps key kept path ((only.planOf key).asked _ path member) next read listed)]
        · rw [if_pos kept]

end Basis

end UtilityCss.Theme
