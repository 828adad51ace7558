import UtilityCss.Proofs.Theme.Sections
import UtilityCss.Proofs.Theme.Upkeep

set_option autoImplicit false

namespace UtilityCss.Theme

open UtilityCss.Config

namespace Memory

variable {m n before middle after last : Memory} {key : String}

/-- What is finished stays finished, and no key is entered or left. -/
structure Extends (before after : Memory) : Prop extends before.Grows after where
  entered : ∀ key, after.progress? key = some .entered ↔ before.progress? key = some .entered

theorem Extends.refl (m : Memory) : m.Extends m := ⟨.refl m, fun _ => .rfl⟩

theorem Extends.trans (first : before.Extends middle) (rest : middle.Extends after) :
    before.Extends after :=
  ⟨first.toGrows.trans rest.toGrows, fun key => (rest.entered key).trans (first.entered key)⟩

theorem Extends.leave (inside : (m.enter key).Extends after) (unknown : m.progress? key = none)
    (result : Except SettingsError (Option Value)) : m.Extends (after.leave key result) where
  toGrows := inside.toGrows.leave unknown result
  entered other := by
    by_cases same : other = key
    · subst same
      cases result <;> simp [progress?_leave_ok, progress?_leave_error, unknown]
    · rw [progress?_leave_of_ne _ _ same, inside.entered, progress?_enter, if_neg same]

structure Same (m n : Memory) : Prop where
  chain : n.chain = m.chain
  progress : ∀ key, n.progress? key = m.progress? key

theorem Same.refl (m : Memory) : m.Same m := ⟨rfl, fun _ => rfl⟩

theorem Same.extends (same : m.Same n) : m.Extends n :=
  ⟨⟨same.chain, fun key value known => by rw [same.progress, known]⟩,
    fun key => by rw [same.progress]⟩

-- A key that failed is entered once more: all that was found inside it before is still finished.
theorem Same.enter {error : SettingsError} (inside : (m.enter key).Extends after)
    (same : (after.leave key (.error error)).Same n) : after.Same (n.enter key) where
  chain := by
    rw [chain_enter, same.chain, chain_leave, inside.chain, chain_enter, List.dropLast_concat]
  progress other := by
    rw [progress?_enter, same.progress, progress?_leave_error]
    split_ifs with isKey
    · rw [isKey]
      refine ((inside.entered key).2 ?_).symm
      rw [progress?_enter, if_pos rfl]
    · rfl

theorem Same.leave (inside : (n.enter key).Same last) (unknown : n.progress? key = none)
    (error : SettingsError) : n.Same (last.leave key (.error error)) where
  chain := by
    rw [chain_leave, inside.chain, chain_enter, List.dropLast_concat]
  progress other := by
    rw [progress?_leave_error]
    split_ifs with isKey
    · rw [isKey, unknown]
    · rw [inside.progress, progress?_enter, if_neg isKey]

end Memory

namespace Basis

variable {r : Basis} {m n after : Memory} {key segment space path : String} {depth : Nat}
  {value : Option Value} {error : SettingsError}

variable (r) in
theorem valueOfKey_extends (depth : Nat) (key : String) (m : Memory) :
    m.Extends (r.valueOfKey depth key m).2 :=
  valueOfKey_preserves .refl .trans (fun unknown _ inside => inside.leave unknown _) depth key m

variable (r) in
theorem segmentValue_extends (depth : Nat) (segment : String) (m : Memory) :
    m.Extends (r.segmentValue (r.valueOfKey depth) segment m).2 :=
  segmentValue_preserves .refl (r.valueOfKey_extends depth) segment m

variable (r) in
theorem valueAtPath_extends (depth : Nat) (path : String) (m : Memory) :
    m.Extends (r.valueAtPath (r.valueOfKey depth) path m).2 :=
  valueAtPath_preserves .refl (r.valueOfKey_extends depth) path m

variable (r) in
theorem run_extends {α : Type} (depth : Nat) (plan : Plan α) (m : Memory) :
    m.Extends (plan.run (r.valueAtPath (r.valueOfKey depth)) m).2 :=
  run_preserves .refl .trans (r.valueAtPath_extends depth) plan m

theorem configKey?_congr (segment : String)
    (entered : ∀ key, n.progress? key = some .entered ↔ m.progress? key = some .entered) :
    r.configKey? segment n = r.configKey? segment m := by
  have inside : n.isEntered (keyOf segment) = m.isEntered (keyOf segment) := by
    rw [Bool.eq_iff_iff, Memory.isEntered_iff, Memory.isEntered_iff, entered]
  simp only [configKey?, inside]

theorem segmentValue_again
    (ran : r.segmentValue (r.valueOfKey depth) segment m = (.ok value, after))
    (later : after.Extends n) :
    r.segmentValue (r.valueOfKey depth) segment n = (.ok value, n) := by
  have kept := r.segmentValue_extends depth segment m
  rw [ran] at kept
  have read : r.configKey? segment n = r.configKey? segment m :=
    configKey?_congr segment (kept.trans later).entered
  unfold segmentValue at ran ⊢
  rw [read]
  cases isKey : r.configKey? segment m with
  | none =>
    simp only [isKey, Prod.mk.injEq] at ran
    simp only [ran.1]
  | some key =>
    rcases found : r.valueOfKey depth key m with ⟨error | held, last⟩
    · simp [isKey, found] at ran
    · simp only [isKey, found, Prod.mk.injEq, Except.ok.injEq] at ran
      obtain ⟨rfl, rfl⟩ := ran
      have finished := later.finished key held (valueOfKey_finishes found)
      simp only [valueOfKey_finished depth finished]

theorem valueAtPath_again
    (ran : r.valueAtPath (r.valueOfKey depth) path m = (.ok value, after))
    (later : after.Extends n) : r.valueAtPath (r.valueOfKey depth) path n = (.ok value, n) := by
  unfold valueAtPath at ran ⊢
  rcases split : splitKeyPath path with fault | ⟨_ | ⟨first, rest⟩⟩
  · simp [split] at ran
  · simp only [split, Prod.mk.injEq] at ran
    simp only [ran.1]
  · rcases found : r.segmentValue (r.valueOfKey depth) first m with ⟨error | held, last⟩
    · simp [split, found] at ran
    · simp only [split, found, Prod.mk.injEq] at ran
      obtain ⟨isValue, rfl⟩ := ran
      simp only [segmentValue_again found later, isValue]

def FailsAgain (step : Step (Option Value)) : Prop :=
  ∀ {m error after n}, step m = (.error error, after) → after.Same n →
    ∃ last, step n = (.error error, last) ∧ n.Same last

theorem segmentValue_failsAgain (keys : ∀ key, FailsAgain (r.valueOfKey depth key))
    (segment : String) : FailsAgain (r.segmentValue (r.valueOfKey depth) segment) := by
  intro m error after n ran same
  have kept := r.segmentValue_extends depth segment m
  rw [ran] at kept
  have read : r.configKey? segment n = r.configKey? segment m :=
    configKey?_congr segment (kept.trans same.extends).entered
  unfold segmentValue at ran ⊢
  rw [read]
  cases isKey : r.configKey? segment m with
  | none => simp [isKey] at ran
  | some key =>
    rcases found : r.valueOfKey depth key m with ⟨failure | held, last⟩
    · simp only [isKey, found, Prod.mk.injEq, Except.error.injEq] at ran
      obtain ⟨rfl, rfl⟩ := ran
      obtain ⟨last, again, still⟩ := keys key found same
      exact ⟨last, by simp only [again], still⟩
    · simp [isKey, found] at ran

theorem valueAtPath_failsAgain (keys : ∀ key, FailsAgain (r.valueOfKey depth key))
    (path : String) : FailsAgain (r.valueAtPath (r.valueOfKey depth) path) := by
  intro m error after n ran same
  unfold valueAtPath at ran ⊢
  rcases split : splitKeyPath path with fault | ⟨_ | ⟨first, rest⟩⟩
  · simp only [split, Prod.mk.injEq] at ran
    exact ⟨n, by simp only [ran.1], .refl n⟩
  · simp [split] at ran
  · rcases found : r.segmentValue (r.valueOfKey depth) first m with ⟨failure | held, last⟩
    · simp only [split, found, Prod.mk.injEq, Except.error.injEq] at ran
      obtain ⟨rfl, rfl⟩ := ran
      obtain ⟨last, again, still⟩ := segmentValue_failsAgain keys first found same
      exact ⟨last, by simp only [again], still⟩
    · simp [split, found] at ran

-- What was found before the failing question is found again and leaves the memory as it is.
theorem run_failsAgain {α : Type} {kind : String → Prop} {plan : Plan α} (refers : plan.Refers kind)
    (keys : ∀ key, FailsAgain (r.valueOfKey depth key))
    (ran : plan.run (r.valueAtPath (r.valueOfKey depth)) m = (.error error, after))
    (same : after.Same n) :
    ∃ last, plan.run (r.valueAtPath (r.valueOfKey depth)) n = (.error error, last) ∧
      n.Same last := by
  induction plan generalizing m with
  | done value => simp [Plan.run] at ran
  | fail failure =>
    simp only [Plan.run, Prod.mk.injEq] at ran ⊢
    exact ⟨n, ⟨ran.1, rfl⟩, .refl n⟩
  | ask path next ih =>
    obtain ⟨-, ends, -, goes⟩ := refers
    rw [Plan.run] at ran
    rcases found : r.valueAtPath (r.valueOfKey depth) path m with ⟨failure | value, middle⟩
    · simp only [found, ends, Plan.run, Prod.mk.injEq, Except.error.injEq] at ran
      obtain ⟨rfl, rfl⟩ := ran
      obtain ⟨last, again, still⟩ := valueAtPath_failsAgain keys path found same
      exact ⟨last, by simp only [Plan.run, again, ends], still⟩
    · simp only [found] at ran
      have kept := r.run_extends depth (next (.ok value)) middle
      rw [ran] at kept
      simp only [Plan.run, valueAtPath_again found (kept.trans same.extends)]
      exact ih _ (goes value) ran

theorem valueOfKey_entered_again (known : m.progress? key = some .entered)
    (ran : r.valueOfKey depth key m = (.error error, after)) (same : after.Same n) :
    r.valueOfKey depth key n = (.error error, n) := by
  rw [valueOfKey_entered depth known, Prod.mk.injEq] at ran
  obtain ⟨failed, rfl⟩ := ran
  rw [valueOfKey_entered depth ((same.progress key).trans known), same.chain, failed]

-- By induction on the depth: a key that failed is unknown after that, so it is computed once more.
theorem valueOfKey_failsAgain (only : r.OnlyReferences) (depth : Nat) (key : String) :
    FailsAgain (r.valueOfKey depth key) := by
  induction depth generalizing key with
  | zero =>
    intro m error after n ran same
    rcases known : m.progress? key with _ | ⟨_ | value⟩
    · rw [valueOfKey_zero known, Prod.mk.injEq] at ran
      obtain ⟨failed, rfl⟩ := ran
      rw [valueOfKey_zero ((same.progress key).trans known), same.chain, failed]
      exact ⟨n, rfl, .refl n⟩
    · exact ⟨n, valueOfKey_entered_again known ran same, .refl n⟩
    · simp [valueOfKey_finished 0 known] at ran
  | succ depth ih =>
    intro m error after n ran same
    rcases known : m.progress? key with _ | ⟨_ | value⟩
    · rw [valueOfKey_succ depth known] at ran
      have inside := r.run_extends depth (r.planOf key) (m.enter key)
      rcases plan : (r.planOf key).run (r.valueAtPath (r.valueOfKey depth)) (m.enter key)
        with ⟨result, stop⟩
      rw [plan] at inside
      simp only [plan, Prod.mk.injEq] at ran
      obtain ⟨rfl, rfl⟩ := ran
      have unknown : n.progress? key = none := by
        rw [same.progress, Memory.progress?_leave_error, if_pos rfl]
      obtain ⟨last, again, still⟩ :=
        run_failsAgain (only.planOf key) ih plan (same.enter inside)
      rw [valueOfKey_succ depth unknown, again]
      exact ⟨_, rfl, still.leave unknown error⟩
    · exact ⟨n, valueOfKey_entered_again known ran same, .refl n⟩
    · simp [valueOfKey_finished _ known] at ran

theorem get_again (only : r.OnlyReferences) (path : String) (m : Memory) :
    (r.get path (r.get path m).2).1 = (r.get path m).1 := by
  unfold get
  rcases ran : r.valueAtPath (r.valueOfKey r.depth) path m with ⟨error | value, after⟩
  · obtain ⟨last, again, -⟩ :=
      valueAtPath_failsAgain (valueOfKey_failsAgain only r.depth) path ran (.refl after)
    rw [again]
  · rw [valueAtPath_again ran (.refl after)]

theorem configKey?_keyOf (aliased : isAliased space = true) (free : space ∉ r.configKeys)
    (idle : m.progress? (keyOf space) ≠ some .entered) :
    r.configKey? (keyOf space) m = r.configKey? space m := by
  have apart : m.isEntered (keyOf space) = false := by
    rwa [Bool.eq_false_iff, Ne, Memory.isEntered_iff]
  by_cases configured : keyOf space ∈ r.configKeys <;>
    simp [configKey?, configured, free, aliased, apart, isAliased_keyOf]

theorem get_keyOf {first second : String} {rest : List String} (aliased : isAliased space = true)
    (free : space ∉ r.configKeys) (byName : splitKeyPath first = .ok (space :: rest))
    (byKey : splitKeyPath second = .ok (keyOf space :: rest))
    (idle : m.progress? (keyOf space) ≠ some .entered) : r.get second m = r.get first m := by
  simp only [get, valueAtPath, byName, byKey, segmentValue, configKey?_keyOf aliased free idle,
    tokenTable?_keyOf r aliased]

end Basis

/-- While no key is being computed, and whatever was asked before, a path that starts with a
namespace has the same result, value, nothing or error, as the path with the key of the namespace in
its place, in whichever order both are asked for. -/
theorem get_by_namespace_or_key {tokens : Tokens} {stack : Stack} {r : Basis}
    {space first second : String} {rest : List String} {m : Memory}
    (references : ∀ layer ∈ stack, layer.config.Refers fun _ => True)
    (isBasis : Basis.ofLayers tokens stack = .ok r)
    (free : ∀ layer ∈ stack, layer.config.settingAt [themeEntry, space] = none ∧
      layer.config.settingAt [themeEntry, extendEntry, space] = none)
    (aliased : keyOf space ≠ space)
    (byName : splitKeyPath first = .ok (space :: rest))
    (byKey : splitKeyPath second = .ok (keyOf space :: rest))
    (idle : ∀ key, m.progress? key ≠ some .entered) :
    (r.get second m).1 = (r.get first m).1 ∧
    (r.get second (r.get first m).2).1 = (r.get first m).1 ∧
    (r.get first (r.get second m).2).1 = (r.get second m).1 := by
  have only : r.OnlyReferences := Basis.refers_of_stack isBasis references
  have agree {n : Memory} (still : n.progress? (keyOf space) ≠ some .entered) :
      r.get second n = r.get first n :=
    Basis.get_keyOf (isAliased_eq_true.2 aliased) (Basis.not_mem_configKeys isBasis free) byName
      byKey still
  have extended (path : String) : m.Extends (r.get path m).2 :=
    r.valueAtPath_extends r.depth path m
  have still (path : String) : (r.get path m).2.progress? (keyOf space) ≠ some .entered :=
    fun entered => idle _ (((extended path).entered _).1 entered)
  refine ⟨by rw [agree (idle _)], ?_, ?_⟩
  · rw [agree (still first), Basis.get_again only]
  · rw [← agree (still second), Basis.get_again only]

def looped : Table Setting :=
  [("accent", .deferred (.reference "accent")),
    ("colors", .table [("brand", .deferred (.reference "palette.base"))]),
    ("palette", .table [("base", .deferred (.reference "color.red"))])]

theorem get_by_color_or_colors :
    ∃ r : Basis, ∃ m : Memory,
      (∀ layer ∈ [Layer.ofTheme looped], layer.config.Refers fun _ => True) ∧
      Basis.ofLayers ⟨[("--color-red", "red")]⟩ [.ofTheme looped] = .ok r ∧
      (∀ layer ∈ [Layer.ofTheme looped],
        layer.config.settingAt [themeEntry, "color"] = none ∧
          layer.config.settingAt [themeEntry, extendEntry, "color"] = none) ∧
      splitKeyPath "color.brand" = .ok ["color", "brand"] ∧
      splitKeyPath "colors.brand" = .ok [keyOf "color", "brand"] ∧
      (r.get "accent" Memory.empty).1.map (fun _ => ()) =
        .error (.circularReference ["accent", "accent"]) ∧
      m = (r.get "accent" Memory.empty).2 ∧
      (r.get "color.brand" m).1.map (·.bind Value.text?) = .ok (some "red") ∧
      (r.get "colors.brand" m).1 = (r.get "color.brand" m).1 ∧
      (r.get "colors.brand" (r.get "color.brand" m).2).1 = (r.get "color.brand" m).1 ∧
      (r.get "color.brand" (r.get "colors.brand" m).2).1 = (r.get "colors.brand" m).1 := by
  have references : ∀ layer ∈ [Layer.ofTheme looped], layer.config.Refers fun _ => True := by
    simp [looped, Layer.ofTheme, Setting.Refers, Setting.deferredValues, Setting.deferredEntries]
  have free : ∀ layer ∈ [Layer.ofTheme looped],
      layer.config.settingAt [themeEntry, "color"] = none ∧
        layer.config.settingAt [themeEntry, extendEntry, "color"] = none := by
    simp only [List.forall_mem_singleton]
    exact ⟨rfl, rfl⟩
  have byName : splitKeyPath "color.brand" = .ok ["color", "brand"] := by decide +kernel
  have byKey : splitKeyPath "colors.brand" = .ok [keyOf "color", "brand"] := by decide +kernel
  have idle := ((⟨⟨[("--color-red", "red")]⟩, [looped]⟩ : Basis).valueAtPath_extends
    (Basis.depth ⟨⟨[("--color-red", "red")]⟩, [looped]⟩) "accent" Memory.empty).entered
  exact ⟨⟨⟨[("--color-red", "red")]⟩, [looped]⟩, _, references, rfl, free, byName, byKey,
    by decide +kernel, rfl, by decide +kernel,
    get_by_namespace_or_key references rfl free (by decide +kernel) byName byKey
      fun key entered => by simpa using (idle key).1 entered⟩

end UtilityCss.Theme
