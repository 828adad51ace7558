import UtilityCss.Proofs.Theme.Names
import UtilityCss.Proofs.Theme.Settling
import UtilityCss.Proofs.Value.Merge

set_option autoImplicit false

namespace UtilityCss.Theme

open UtilityCss.Config

def Memory.Remembers (last m : Memory) : Prop :=
  ∀ key value, m.progress? key = some (.finished value) →
    last.progress? key = some (.finished value)

namespace Basis

def Computes (r : Basis) (last : Memory) (key : String) (value : Option Value) : Prop :=
  ∃ depth before after, before.chain.getLast? = some key ∧
    (r.planOf key).run (r.valueAtPath (r.valueOfKey depth)) before = (.ok value, after) ∧
    last.Remembers after

def Contributes (r : Basis) (last : Memory) (key : String) (value : Value) : Prop :=
  ∃ setting ∈ Plan.settingsFor key r.sections, ∃ depth before after,
    before.chain.getLast? = some key ∧
    evaluate (r.valueAtPath (r.valueOfKey depth)) setting before = (.ok value, after) ∧
    last.Remembers after

structure Accounted (r : Basis) (m : Memory) : Prop where
  valid : m.Valid
  computes : ∀ key value, m.progress? key = some (.finished value) → r.Computes m key value

structure Keeps (r : Basis) (before after : Memory) : Prop where
  grows : before.Grows after
  accounted : r.Accounted before → r.Accounted after

variable {r : Basis} {m before middle after last : Memory} {key : String} {path : List String}
  {value : Option Value}

theorem Computes.mono (computes : r.Computes before key value) (remembers : last.Remembers before) :
    r.Computes last key value := by
  obtain ⟨depth, start, stop, entered, ran, known⟩ := computes
  exact ⟨depth, start, stop, entered, ran, fun other value found =>
    remembers other value (known other value found)⟩

theorem accounted_empty (r : Basis) : r.Accounted Memory.empty :=
  ⟨Memory.valid_empty, by simp⟩

theorem Keeps.refl (m : Memory) : r.Keeps m m := ⟨.refl m, id⟩

theorem Keeps.trans (first : r.Keeps before middle) (rest : r.Keeps middle after) :
    r.Keeps before after :=
  ⟨first.grows.trans rest.grows, rest.accounted ∘ first.accounted⟩

section Preservation

variable {R : Memory → Memory → Prop} (refl : ∀ m, R m m)
  (trans : ∀ {before middle after}, R before middle → R middle after → R before after)

include refl in
theorem segmentValue_preserves {ofKey : String → Step (Option Value)}
    (keeps : ∀ key m, R m (ofKey key m).2) (segment : String) (m : Memory) :
    R m (r.segmentValue ofKey segment m).2 := by
  unfold segmentValue
  cases r.configKey? segment m with
  | none => exact refl m
  | some key =>
    have answer := keeps key m
    rcases found : ofKey key m with ⟨_ | _, after⟩ <;> simpa [found] using answer

include refl in
theorem valueAtPath_preserves {ofKey : String → Step (Option Value)}
    (keeps : ∀ key m, R m (ofKey key m).2) (path : String) (m : Memory) :
    R m (r.valueAtPath ofKey path m).2 := by
  unfold valueAtPath
  rcases splitKeyPath path with fault | ⟨_ | ⟨first, rest⟩⟩
  · exact refl m
  · exact refl m
  · have answer := segmentValue_preserves (r := r) refl keeps first m
    rcases found : r.segmentValue ofKey first m with ⟨_ | _, after⟩ <;> simpa [found] using answer

include refl trans

theorem run_preserves {α : Type} {asked : String → Step (Option Value)}
    (keeps : ∀ path m, R m (asked path m).2) (plan : Plan α) (m : Memory) :
    R m (plan.run asked m).2 := by
  induction plan generalizing m with
  | done value => exact refl m
  | fail error => exact refl m
  | ask path next ih => exact trans (keeps path m) (ih _ _)

theorem valueOfKey_preserves
    (leaves : ∀ {depth key m result after}, m.progress? key = none →
      (r.planOf key).run (r.valueAtPath (r.valueOfKey depth)) (m.enter key) = (result, after) →
      R (m.enter key) after → R m (after.leave key result)) (depth : Nat) (key : String)
    (m : Memory) : R m (r.valueOfKey depth key m).2 := by
  induction depth generalizing key m with
  | zero =>
    rcases known : m.progress? key with _ | ⟨_ | value⟩
    · exact valueOfKey_zero known ▸ refl m
    · exact valueOfKey_entered 0 known ▸ refl m
    · exact valueOfKey_finished 0 known ▸ refl m
  | succ depth ih =>
    rcases known : m.progress? key with _ | ⟨_ | value⟩
    · have inside := run_preserves refl trans (valueAtPath_preserves (r := r) refl ih)
        (r.planOf key) (m.enter key)
      rw [valueOfKey_succ depth known]
      rcases ran : (r.planOf key).run (r.valueAtPath (r.valueOfKey depth)) (m.enter key)
        with ⟨result, after⟩
      rw [ran] at inside
      exact leaves known ran inside
    · exact valueOfKey_entered _ known ▸ refl m
    · exact valueOfKey_finished _ known ▸ refl m

end Preservation

theorem Accounted.enter (accounted : r.Accounted m) (unknown : m.progress? key = none) :
    r.Accounted (m.enter key) where
  valid := accounted.valid.enter unknown
  computes other value found := by
    have remembers : (m.enter key).Remembers m := by
      intro next result known
      rw [Memory.progress?_enter, if_neg, known]
      rintro rfl
      simp [unknown] at known
    rw [Memory.progress?_enter] at found
    split_ifs at found with same
    · cases found
    · exact (accounted.computes other value found).mono remembers

-- The key that is left was the last one entered, so nothing finished is forgotten with it.
theorem remembers_leave (valid : after.Valid) (entered : key ∈ after.chain)
    (result : Except SettingsError (Option Value)) : (after.leave key result).Remembers after := by
  intro other value known
  rw [Memory.progress?_leave_of_ne, known]
  rintro rfl
  simp [(valid.entered other).2 entered] at known

theorem Accounted.leave (accounted : r.Accounted after)
    (chain : after.chain = before.chain ++ [key]) (result : Except SettingsError (Option Value))
    (own : ∀ value, result = .ok value → r.Computes after key value) :
    r.Accounted (after.leave key result) where
  valid := accounted.valid.leave chain result
  computes other value found := by
    have entered : key ∈ after.chain := by simp [chain]
    apply Computes.mono _ (remembers_leave accounted.valid entered result)
    by_cases same : other = key
    · subst same
      cases result with
      | ok known =>
        rw [Memory.progress?_leave_ok, if_pos rfl] at found
        obtain rfl : known = value := by simpa using found
        exact own known rfl
      | error error => simp [Memory.progress?_leave_error] at found
    · rw [Memory.progress?_leave_of_ne _ _ same] at found
      exact accounted.computes other value found

theorem valueOfKey_keeps (depth : Nat) (key : String) (m : Memory) :
    r.Keeps m (r.valueOfKey depth key m).2 := by
  refine valueOfKey_preserves .refl .trans (fun known ran inside => ?_) depth key m
  refine ⟨inside.grows.leave known _, fun accounted => ?_⟩
  apply (inside.accounted (accounted.enter known)).leave inside.grows.chain
  rintro value rfl
  exact ⟨_, _, _, by simp, ran, fun _ _ found => found⟩

theorem valueOfKey_finishes {depth : Nat} (ran : r.valueOfKey depth key m = (.ok value, after)) :
    after.progress? key = some (.finished value) := by
  rcases known : m.progress? key with _ | ⟨_ | held⟩
  · cases depth with
    | zero => simp [valueOfKey_zero known] at ran
    | succ depth =>
      rw [valueOfKey_succ depth known] at ran
      simp only [Prod.mk.injEq] at ran
      obtain ⟨isValue, rfl⟩ := ran
      rw [isValue, Memory.progress?_leave_ok, if_pos rfl]
  · simp [valueOfKey_entered depth known] at ran
  · rw [valueOfKey_finished depth known] at ran
    simp only [Prod.mk.injEq, Except.ok.injEq] at ran
    rw [← ran.2, known, ran.1]

theorem find_keeps {result : Except SettingsError (Option Value)}
    (ran : r.find key m = (result, after)) : r.Keeps m after := by
  have keeps : r.Keeps m (r.find key m).2 :=
    segmentValue_preserves .refl (valueOfKey_keeps r.depth) key m
  rwa [ran] at keeps

theorem collect_keeps {keys : List String} {result : Except SettingsError (Table Value)}
    (ran : r.collect keys m = (result, after)) : r.Keeps m after := by
  induction keys generalizing m result with
  | nil =>
    simp only [collect, Prod.mk.injEq] at ran
    exact ran.2 ▸ .refl m
  | cons key rest ih =>
    rw [collect] at ran
    rcases found : r.find key m with ⟨error | value, middle⟩
    · simp only [found, Prod.mk.injEq] at ran
      exact ran.2 ▸ find_keeps found
    · apply (find_keeps found).trans
      rcases later : r.collect rest middle with ⟨error | values, last⟩
      · simp only [found, later, Prod.mk.injEq] at ran
        obtain ⟨-, rfl⟩ := ran
        exact ih later
      · simp only [found, later, Prod.mk.injEq] at ran
        obtain ⟨-, rfl⟩ := ran
        exact ih later

theorem find_shows (member : key ∈ r.keys) (accounted : r.Accounted m)
    (ran : r.find key m = (.ok value, after)) :
    r.DecidesSegment after key ∧ r.shownSegment after.settled key = value := by
  rcases mem_keys member with configured | ⟨unconfigured, plain⟩
  · have read : r.configKey? key m = some key := by simp [configKey?, configured]
    have layers : r.layerKey? key = some key := by simp [layerKey?, configured]
    have keeps : r.Keeps m (r.valueOfKey r.depth key m).2 := valueOfKey_keeps r.depth key m
    rcases answer : r.valueOfKey r.depth key m with ⟨error | held, last⟩
    · simp [find, segmentValue, read, answer] at ran
    · simp only [find, segmentValue, read, answer, Prod.mk.injEq, Except.ok.injEq] at ran
      obtain ⟨rfl, rfl⟩ := ran
      rw [answer] at keeps
      have finished := valueOfKey_finishes answer
      refine ⟨fun other isOther => ?_, ?_⟩
      · exact .inl ⟨held, Option.some.inj (layers.symm.trans isOther) ▸ finished⟩
      · rw [shownSegment, layers, Option.bind_some,
          (Memory.get?_settled (keeps.accounted accounted).valid).2 finished]
        rfl
  · have read : r.configKey? key m = none := by simp [configKey?, unconfigured, plain]
    have layers : r.layerKey? key = none := by simp [layerKey?, unconfigured, plain]
    simp only [find, segmentValue, read, Prod.mk.injEq, Except.ok.injEq] at ran
    obtain ⟨rfl, rfl⟩ := ran
    refine ⟨fun other isOther => ?_, ?_⟩
    · simp [layers] at isOther
    · rw [shownSegment, layers, Option.bind_none, overlay?_none]

theorem collect_shows_keys {keys : List String} {entries : Table Value}
    (inside : ∀ key ∈ keys, key ∈ r.keys) (accounted : r.Accounted m)
    (ran : r.collect keys m = (.ok entries, last)) :
    entries = keys.filterMap fun key =>
      (r.shownSegment last.settled key).map fun value => (key, value) := by
  induction keys generalizing m entries with
  | nil =>
    obtain ⟨rfl, rfl⟩ : [] = entries ∧ m = last := by simpa [collect] using ran
    rfl
  | cons key rest ih =>
    obtain ⟨member, others⟩ := List.forall_mem_cons.1 inside
    rw [collect] at ran
    rcases found : r.find key m with ⟨error | value, middle⟩
    · simp [found] at ran
    · rcases later : r.collect rest middle with ⟨error | values, after⟩
      · simp [found, later] at ran
      · simp only [found, later, Prod.mk.injEq, Except.ok.injEq] at ran
        obtain ⟨rfl, rfl⟩ := ran
        obtain ⟨decides, shown⟩ := find_shows member accounted found
        have first := (find_keeps found).accounted accounted
        have keeps := collect_keeps later
        -- What the first key shows does not change while the others are collected.
        obtain ⟨-, same⟩ := decides.mono keeps.grows first.valid (keeps.accounted first).valid
        rw [List.filterMap_cons, same, shown, ih others first later]
        cases value <;> rfl

section Fold

variable {asked : String → Step (Option Value)} {running : Option Value} {total : Value}
  (keeps : ∀ path m, r.Keeps m (asked path m).2)

include keeps in
theorem grows_of_run {α : Type} {plan : Plan α} {result : Except SettingsError α}
    (ran : plan.run asked before = (result, after)) : before.Grows after := by
  have kept : r.Keeps before (plan.run asked before).2 :=
    run_preserves .refl .trans keeps plan before
  rw [ran] at kept
  exact kept.grows

theorem covers_of_setting {combine : Option Value → Value → Value} {setting : Option Setting}
    (combines : ∀ own, (combine running own).Covers path →
      (∃ old, running = some old ∧ old.Covers path) ∨ own.Covers path)
    (ran : (Plan.ofSetting? combine running setting).run asked before = (.ok (some total), after))
    (covers : total.Covers path) :
    (∃ old, running = some old ∧ old.Covers path) ∨
      ∃ found own, setting = some found ∧ evaluate asked found before = (.ok own, after) ∧
        own.Covers path := by
  rw [← apply_eq] at ran
  cases setting with
  | none =>
    simp only [apply, Prod.mk.injEq, Except.ok.injEq] at ran
    exact .inl ⟨total, ran.1, covers⟩
  | some found =>
    rcases evaluated : evaluate asked found before with ⟨error | own, middle⟩
    · simp [apply, evaluated] at ran
    · simp only [apply, evaluated, Prod.mk.injEq, Except.ok.injEq, Option.some.injEq] at ran
      obtain ⟨rfl, rfl⟩ := ran
      exact (combines own covers).imp_right fun upper => ⟨found, own, rfl, evaluated, upper⟩

include keeps in
theorem covers_of_run {sections : List (Table Setting)}
    (ran : (Plan.ofSections key sections running).run asked before = (.ok (some total), last))
    (covers : total.Covers path) :
    (∃ old, running = some old ∧ old.Covers path) ∨
    ∃ setting ∈ Plan.settingsFor key sections, ∃ start stop own,
      evaluate asked setting start = (.ok own, stop) ∧ own.Covers path ∧
        before.Grows start ∧ stop.Grows last := by
  induction sections generalizing running before with
  | nil =>
    simp only [Plan.ofSections, Plan.run, Prod.mk.injEq, Except.ok.injEq] at ran
    exact .inl ⟨total, ran.1, covers⟩
  | cons part rest ih =>
    rw [Plan.ofSections, Plan.run_andThen] at ran
    rcases defined : (Plan.ofSetting? (fun _ value => value) running (definition? key part)).run
      asked before with ⟨error | first, middle⟩
    · simp [defined] at ran
    rw [defined] at ran
    dsimp only at ran
    rw [Plan.run_andThen] at ran
    rcases added : (Plan.ofSetting? Value.extendWith first (addition? key part)).run
      asked middle with ⟨error | second, after⟩
    · simp [added] at ran
    rw [added] at ran
    have toMiddle := grows_of_run keeps defined
    have toAfter := grows_of_run keeps added
    have toLast := grows_of_run keeps ran
    rcases ih ran with ⟨upper, rfl, above⟩ |
      ⟨setting, member, start, stop, own, evaluated, above, begins, ends⟩
    · rcases covers_of_setting (fun own => Value.covers_extendWith) added above with
        ⟨lower, rfl, below⟩ | ⟨setting, own, isAddition, evaluated, own_covers⟩
      · rcases covers_of_setting (fun own => .inr) defined below with
          old | ⟨setting, own, isDefinition, evaluated, own_covers⟩
        · exact .inl old
        · exact .inr ⟨setting, by simp [Plan.settingsFor, isDefinition], before, middle, own,
            evaluated, own_covers, .refl before, toAfter.trans toLast⟩
      · exact .inr ⟨setting, by simp [Plan.settingsFor, isAddition], middle, after, own,
          evaluated, own_covers, toMiddle, toLast⟩
    · refine .inr ⟨setting, ?_, start, stop, own, evaluated, above,
        (toMiddle.trans toAfter).trans begins, ends⟩
      rw [Plan.settingsFor, List.flatMap_cons, List.mem_append]
      exact .inr member

end Fold

theorem Computes.contributes {total : Value} (computes : r.Computes last key (some total))
    (covers : total.Covers path) : ∃ own, r.Contributes last key own ∧ own.Covers path := by
  obtain ⟨depth, before, after, entered, ran, remembers⟩ := computes
  obtain ⟨old, nothing, -⟩ | ⟨setting, member, start, stop, own, evaluated, above, begins, ends⟩ :=
    covers_of_run (valueAtPath_preserves .refl (valueOfKey_keeps depth)) ran covers
  · cases nothing
  · refine ⟨own, ⟨setting, member, depth, start, stop, ?_, evaluated, ?_⟩, above⟩
    · rw [begins.chain, entered]
    · exact fun other value found => remembers other value (ends.finished other value found)

end Basis

end UtilityCss.Theme
