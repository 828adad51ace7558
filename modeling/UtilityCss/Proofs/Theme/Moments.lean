import UtilityCss.Proofs.Theme.Descent
import UtilityCss.Proofs.Theme.Outcome
import UtilityCss.Proofs.Theme.Repetition

set_option autoImplicit false

namespace UtilityCss.Theme

open UtilityCss.Config

inductive Event where
  | enters (key : String)
  | leaves (key : String) (result : Except SettingsError (Option Value))
  | refuses (key : String) (result : Except SettingsError (Option Value))
  | answers (path : String) (result : Except SettingsError (Option Value))
  | finds (key : String) (result : Except SettingsError (Option Value))

namespace Event

def isLookup : Event → Bool
  | .answers _ _ => true
  | .finds _ _ => true
  | _ => false

def behind (within : List String) : Event → List String
  | .enters key => within ++ [key]
  | .leaves _ _ => within.dropLast
  | _ => within

def refused? : Event → Option String
  | .refuses key _ => some key
  | _ => none

def failed? : Event → Option String
  | .answers path (.error _) => some path
  | _ => none

theorem eq_of_refused? {event : Event} {key : String} (refused : event.refused? = some key) :
    ∃ result, event = .refuses key result := by
  cases event <;> simp_all [refused?]

theorem eq_of_failed? {event : Event} {path : String} (failed : event.failed? = some path) :
    ∃ error, event = .answers path (.error error) := by
  unfold failed? at failed
  split at failed <;> simp_all

end Event

structure Moment where
  within : List String
  event : Event
  before : Memory
  after : Memory

/-- Moments inside the evaluation of some keys, from one memory to another one. A key is left behind
all that happens inside it, and a look-up returns behind all that happens for it. -/
inductive Nested : List String → Memory → List Moment → Memory → Prop
  | nil (within : List String) (m : Memory) : Nested within m [] m
  | refusal {within : List String} {m last : Memory} {rest : List Moment} (key : String)
      (result : Except SettingsError (Option Value)) (behind : Nested within m rest last) :
      Nested within m (⟨within, .refuses key result, m, m⟩ :: rest) last
  | key {within : List String} {m after last : Memory} {inner rest : List Moment} (key : String)
      (result : Except SettingsError (Option Value))
      (inside : Nested (within ++ [key]) (m.enter key) inner after)
      (behind : Nested within (after.leave key result) rest last) :
      Nested within m (⟨within, .enters key, m, m.enter key⟩ :: (inner ++
        ⟨within ++ [key], .leaves key result, after, after.leave key result⟩ :: rest)) last
  | lookup {within : List String} {m after last : Memory} {inner rest : List Moment}
      {event : Event} (isLookup : event.isLookup = true) (inside : Nested within m inner after)
      (behind : Nested within after rest last) :
      Nested within m (inner ++ ⟨within, event, m, after⟩ :: rest) last

def Plan.moments {α : Type} (within : List String) (asked : String → Step (Option Value))
    (inside : String → Memory → List Moment) : Plan α → Memory → List Moment
  | .done _, _ => []
  | .fail _, _ => []
  | .ask path next, m =>
    let (found, after) := asked path m
    inside path m ++ ⟨within, .answers path found, m, after⟩ ::
      (next found).moments within asked inside after

theorem Plan.nested_moments {α : Type} {within : List String}
    {asked : String → Step (Option Value)} {inside : String → Memory → List Moment}
    (nested : ∀ path m, Nested within m (inside path m) (asked path m).2) (plan : Plan α)
    (m : Memory) : Nested within m (plan.moments within asked inside m) (plan.run asked m).2 := by
  induction plan generalizing m with
  | done value => exact .nil within m
  | fail error => exact .nil within m
  | ask path next ih => exact .lookup rfl (nested path m) (ih _ _)

namespace Basis

variable (r : Basis)

def segmentMoments (ofKey : String → Memory → List Moment) (segment : String) (m : Memory) :
    List Moment :=
  match r.configKey? segment m with
  | none => []
  | some key => ofKey key m

def pathMoments (ofKey : String → Memory → List Moment) (path : String) (m : Memory) :
    List Moment :=
  match firstSegment? path with
  | none => []
  | some segment => r.segmentMoments ofKey segment m

def keyMoments : Nat → List String → String → Memory → List Moment
  | depth, within, key, m =>
    match m.progress? key with
    | some (.finished _) => []
    | some .entered => [⟨within, .refuses key (r.valueOfKey depth key m).1, m, m⟩]
    | none =>
      match depth with
      | 0 => [⟨within, .refuses key (r.valueOfKey 0 key m).1, m, m⟩]
      | depth + 1 =>
        let asked := r.valueAtPath (r.valueOfKey depth)
        let inside := r.pathMoments (keyMoments depth (within ++ [key]))
        let (result, after) := (r.planOf key).run asked (m.enter key)
        ⟨within, .enters key, m, m.enter key⟩ ::
          ((r.planOf key).moments (within ++ [key]) asked inside (m.enter key) ++
            [⟨within ++ [key], .leaves key result, after, after.leave key result⟩])

def momentsOf : List String → Memory → List Moment
  | [], _ => []
  | key :: rest, m =>
    let (result, after) := r.find key m
    r.segmentMoments (r.keyMoments r.depth []) key m ++ ⟨[], .finds key result, m, after⟩ ::
      match result with
      | .error _ => []
      | .ok _ => momentsOf rest after

def history : List Moment := r.momentsOf r.keys Memory.empty

variable {r} {m after : Memory} {key segment path : String} {keys within : List String}
  {depth : Nat}

theorem keyMoments_finished {value : Option Value}
    (known : m.progress? key = some (.finished value)) : r.keyMoments depth within key m = [] := by
  cases depth <;> simp [keyMoments, known]

theorem keyMoments_entered (known : m.progress? key = some .entered) :
    r.keyMoments depth within key m =
      [⟨within, .refuses key (r.valueOfKey depth key m).1, m, m⟩] := by
  cases depth <;> simp [keyMoments, known]

theorem keyMoments_zero (unknown : m.progress? key = none) :
    r.keyMoments 0 within key m = [⟨within, .refuses key (r.valueOfKey 0 key m).1, m, m⟩] := by
  simp [keyMoments, unknown]

theorem keyMoments_succ (depth : Nat) (unknown : m.progress? key = none) :
    r.keyMoments (depth + 1) within key m =
      let (result, after) :=
        (r.planOf key).run (r.valueAtPath (r.valueOfKey depth)) (m.enter key)
      ⟨within, .enters key, m, m.enter key⟩ ::
        ((r.planOf key).moments (within ++ [key]) (r.valueAtPath (r.valueOfKey depth))
            (r.pathMoments (r.keyMoments depth (within ++ [key]))) (m.enter key) ++
          [⟨within ++ [key], .leaves key result, after, after.leave key result⟩]) := by
  simp only [keyMoments, unknown]

theorem momentsOf_error {rest : List String} {error : SettingsError}
    (found : r.find key m = (.error error, after)) : r.momentsOf (key :: rest) m =
      r.segmentMoments (r.keyMoments r.depth []) key m ++
        [⟨[], .finds key (.error error), m, after⟩] := by
  simp only [momentsOf, found]

theorem momentsOf_ok {rest : List String} {value : Option Value}
    (found : r.find key m = (.ok value, after)) : r.momentsOf (key :: rest) m =
      r.segmentMoments (r.keyMoments r.depth []) key m ++
        ⟨[], .finds key (.ok value), m, after⟩ :: r.momentsOf rest after := by
  simp only [momentsOf, found]

theorem nested_segment {ofKey : String → Step (Option Value)}
    {inside : String → Memory → List Moment}
    (nested : ∀ key m, Nested within m (inside key m) (ofKey key m).2) (segment : String)
    (m : Memory) :
    Nested within m (r.segmentMoments inside segment m) (r.segmentValue ofKey segment m).2 := by
  unfold segmentMoments segmentValue
  cases r.configKey? segment m with
  | none => exact .nil within m
  | some key =>
    have reached := nested key m
    rcases found : ofKey key m with ⟨_ | _, after⟩ <;> simpa [found] using reached

theorem nested_path {ofKey : String → Step (Option Value)}
    {inside : String → Memory → List Moment}
    (nested : ∀ key m, Nested within m (inside key m) (ofKey key m).2) (path : String)
    (m : Memory) :
    Nested within m (r.pathMoments inside path m) (r.valueAtPath ofKey path m).2 := by
  unfold pathMoments valueAtPath firstSegment?
  rcases splitKeyPath path with fault | ⟨_ | ⟨first, rest⟩⟩
  · exact .nil within m
  · exact .nil within m
  · have reached := nested_segment (r := r) nested first m
    rcases found : r.segmentValue ofKey first m with ⟨_ | _, after⟩ <;>
      simpa [found] using reached

theorem nested_key (depth : Nat) (within : List String) (key : String) (m : Memory) :
    Nested within m (r.keyMoments depth within key m) (r.valueOfKey depth key m).2 := by
  induction depth generalizing within key m with
  | zero =>
    rcases known : m.progress? key with _ | ⟨_ | value⟩
    · rw [keyMoments_zero known, valueOfKey_zero known]
      exact .refusal key _ (.nil within m)
    · rw [keyMoments_entered known, valueOfKey_entered 0 known]
      exact .refusal key _ (.nil within m)
    · rw [keyMoments_finished known, valueOfKey_finished 0 known]
      exact .nil within m
  | succ depth ih =>
    rcases known : m.progress? key with _ | ⟨_ | value⟩
    · rw [keyMoments_succ depth known, valueOfKey_succ depth known]
      exact .key key _ ((r.planOf key).nested_moments (nested_path (ih (within ++ [key]))) _)
        (.nil within _)
    · rw [keyMoments_entered known, valueOfKey_entered _ known]
      exact .refusal key _ (.nil within m)
    · rw [keyMoments_finished known, valueOfKey_finished _ known]
      exact .nil within m

theorem nested_keys (keys : List String) (m : Memory) :
    Nested [] m (r.momentsOf keys m) (r.collect keys m).2 := by
  induction keys generalizing m with
  | nil => exact .nil [] m
  | cons key rest ih =>
    have first : Nested [] m (r.segmentMoments (r.keyMoments r.depth []) key m) (r.find key m).2 :=
      nested_segment (nested_key r.depth []) key m
    rcases found : r.find key m with ⟨error | value, middle⟩
    · rw [found] at first
      rw [momentsOf_error found]
      simp only [collect, found]
      exact .lookup rfl first (.nil [] middle)
    · rw [found] at first
      have later := ih middle
      rw [momentsOf_ok found]
      simp only [collect, found]
      rcases ran : r.collect rest middle with ⟨error | values, after⟩ <;> rw [ran] at later <;>
        exact .lookup rfl first later

structure Computing (r : Basis) (m : Memory) (keys : List String) : Prop where
  accounted : r.Accounted m
  chain : m.chain = keys
  configured : ∀ key ∈ keys, key ∈ r.configKeys

theorem computing_empty (r : Basis) : r.Computing Memory.empty [] :=
  ⟨accounted_empty r, rfl, by simp⟩

namespace Computing

theorem keeps (computing : r.Computing m keys) (keeps : r.Keeps m after) :
    r.Computing after keys :=
  ⟨keeps.accounted computing.accounted, keeps.grows.chain.trans computing.chain,
    computing.configured⟩

theorem enter (computing : r.Computing m keys) (unknown : m.progress? key = none)
    (configured : key ∈ r.configKeys) : r.Computing (m.enter key) (keys ++ [key]) where
  accounted := computing.accounted.enter unknown
  chain := by rw [Memory.chain_enter, computing.chain]
  configured other member := by
    rcases List.mem_append.1 member with before | last
    · exact computing.configured other before
    · exact List.mem_singleton.1 last ▸ configured

theorem nodup (computing : r.Computing m keys) : keys.Nodup :=
  computing.chain ▸ computing.accounted.valid.nodup

theorem entered (computing : r.Computing m keys) (key : String) :
    m.progress? key = some .entered ↔ key ∈ keys :=
  computing.chain ▸ computing.accounted.valid.entered key

theorem length_le (computing : r.Computing m keys) : keys.length ≤ r.configKeys.length :=
  (List.subperm_of_subset computing.nodup computing.configured).length_le

end Computing

theorem run_alike {α : Type} {asked answered : String → Step (Option Value)}
    (alike : ∀ path m, r.Computing m keys → asked path m = answered path m)
    (keeps : ∀ path m, r.Keeps m (asked path m).2) (plan : Plan α)
    (computing : r.Computing m keys) : plan.run asked m = plan.run answered m := by
  induction plan generalizing m with
  | done value => rfl
  | fail error => rfl
  | ask path next ih =>
    simp only [Plan.run, ← alike path m computing]
    exact ih _ (computing.keeps (keeps path m))

theorem valueOfKey_alike {deeper : Nat} (computing : r.Computing m keys)
    (configured : key ∈ r.configKeys) (deep : r.configKeys.length < keys.length + depth)
    (also : r.configKeys.length < keys.length + deeper) :
    r.valueOfKey depth key m = r.valueOfKey deeper key m := by
  induction depth generalizing deeper key m keys with
  | zero => exact absurd computing.length_le (by omega)
  | succ depth ih =>
    cases deeper with
    | zero => exact absurd computing.length_le (by omega)
    | succ deeper =>
      rcases known : m.progress? key with _ | ⟨_ | value⟩
      · have alike (path : String) (middle : Memory) (below : r.Computing middle (keys ++ [key])) :
            r.valueAtPath (r.valueOfKey depth) path middle =
              r.valueAtPath (r.valueOfKey deeper) path middle :=
          valueAtPath_congr fun other read => ih below (readKey?_mem read)
            (by rw [List.length_append, List.length_singleton]; omega)
            (by rw [List.length_append, List.length_singleton]; omega)
        rw [valueOfKey_succ depth known, valueOfKey_succ deeper known,
          run_alike alike (valueAtPath_preserves .refl (valueOfKey_keeps depth)) (r.planOf key)
            (computing.enter known configured)]
      · rw [valueOfKey_entered _ known, valueOfKey_entered _ known]
      · rw [valueOfKey_finished _ known, valueOfKey_finished _ known]

theorem get_alike (computing : r.Computing m keys)
    (deep : r.configKeys.length < keys.length + depth) (path : String) :
    r.valueAtPath (r.valueOfKey depth) path m = r.get path m :=
  valueAtPath_congr fun _ read =>
    valueOfKey_alike computing (readKey?_mem read) deep (by unfold Basis.depth; omega)

structure Sound (r : Basis) (moment : Moment) : Prop where
  before : r.Computing moment.before moment.within
  after : r.Computing moment.after (moment.event.behind moment.within)
  refuses : ∀ key result, moment.event = .refuses key result →
    key ∈ moment.within ∧ result = .error (.circularReference (moment.within ++ [key]))
  answers : ∀ path result, moment.event = .answers path result →
    r.get path moment.before = (result, moment.after)
  finds : ∀ key result, moment.event = .finds key result →
    r.find key moment.before = (result, moment.after)
  leaves : ∀ key result, moment.event = .leaves key result →
    moment.after = moment.before.leave key result

theorem sound_plan {α : Type} {asked : String → Step (Option Value)}
    {inside : String → Memory → List Moment}
    (sound : ∀ path m, r.Computing m within → ∀ moment ∈ inside path m, r.Sound moment)
    (answers : ∀ path m, r.Computing m within → asked path m = r.get path m)
    (keeps : ∀ path m, r.Keeps m (asked path m).2) (plan : Plan α)
    (computing : r.Computing m within) :
    ∀ moment ∈ plan.moments within asked inside m, r.Sound moment := by
  induction plan generalizing m with
  | done value => simp [Plan.moments]
  | fail error => simp [Plan.moments]
  | ask path next ih =>
    have after := computing.keeps (keeps path m)
    intro moment member
    rcases List.mem_append.1 member with below | here
    · exact sound path m computing moment below
    · rcases List.mem_cons.1 here with rfl | later
      · refine ⟨computing, after, by simp, ?_, by simp, by simp⟩
        rintro path result ⟨⟩
        exact (answers path m computing).symm
      · exact ih _ after moment later

theorem configKey?_mem (read : r.configKey? segment m = some key) : key ∈ r.configKeys := by
  rcases configKey?_cases r segment m with same | ⟨-, -, -, -, skipped⟩
  · exact layerKey?_mem (same.symm.trans read)
  · rw [skipped] at read
    cases read

theorem sound_segment {inside : String → Memory → List Moment}
    (sound : ∀ key ∈ r.configKeys, ∀ moment ∈ inside key m, r.Sound moment) :
    ∀ moment ∈ r.segmentMoments inside segment m, r.Sound moment := by
  unfold segmentMoments
  cases read : r.configKey? segment m with
  | none => simp
  | some key => exact sound key (configKey?_mem read)

theorem sound_path {inside : String → Memory → List Moment}
    (sound : ∀ key ∈ r.configKeys, ∀ moment ∈ inside key m, r.Sound moment) :
    ∀ moment ∈ r.pathMoments inside path m, r.Sound moment := by
  unfold pathMoments
  cases firstSegment? path with
  | none => simp
  | some segment => exact sound_segment sound

theorem sound_key (depth : Nat) (computing : r.Computing m within)
    (configured : key ∈ r.configKeys) (deep : r.configKeys.length < within.length + depth) :
    ∀ moment ∈ r.keyMoments depth within key m, r.Sound moment := by
  induction depth generalizing within key m with
  | zero => exact absurd computing.length_le (by omega)
  | succ depth ih =>
    rcases known : m.progress? key with _ | ⟨_ | value⟩
    · have deeper : r.configKeys.length < (within ++ [key]).length + depth := by
        rw [List.length_append, List.length_singleton]
        omega
      have entered := computing.enter known configured
      have asks (path : String) (m : Memory) :
          r.Keeps m (r.valueAtPath (r.valueOfKey depth) path m).2 :=
        valueAtPath_preserves .refl (valueOfKey_keeps depth) path m
      have inside (path : String) (middle : Memory) (below : r.Computing middle (within ++ [key])) :
          ∀ moment ∈ r.pathMoments (r.keyMoments depth (within ++ [key])) path middle,
            r.Sound moment :=
        sound_path fun other isKey => ih below isKey deeper
      have inner := sound_plan inside (fun path middle below => get_alike below deeper path) asks
        (r.planOf key) entered
      have left : r.Computing (r.valueOfKey (depth + 1) key m).2 within :=
        computing.keeps (valueOfKey_keeps (depth + 1) key m)
      have ran : r.Keeps (m.enter key)
          ((r.planOf key).run (r.valueAtPath (r.valueOfKey depth)) (m.enter key)).2 :=
        run_preserves .refl .trans asks (r.planOf key) (m.enter key)
      rw [valueOfKey_succ depth known] at left
      rw [keyMoments_succ depth known]
      intro moment member
      rcases List.mem_cons.1 member with rfl | later
      · exact ⟨computing, entered, by simp, by simp, by simp, by simp⟩
      · rcases List.mem_append.1 later with below | last
        · exact inner moment below
        · obtain rfl := List.mem_singleton.1 last
          refine ⟨entered.keeps ran, ?_, by simp, by simp, by simp, ?_⟩
          · simpa [Event.behind] using left
          · rintro key result ⟨⟩
            rfl
    · rw [keyMoments_entered known, List.forall_mem_singleton]
      refine ⟨computing, computing, ?_, by simp, by simp, by simp⟩
      rintro key result ⟨⟩
      rw [valueOfKey_entered _ known, computing.chain]
      exact ⟨(computing.entered key).1 known, rfl⟩
    · rw [keyMoments_finished known]
      simp

theorem sound_keys (keys : List String) (idle : r.Computing m []) :
    ∀ moment ∈ r.momentsOf keys m, r.Sound moment := by
  induction keys generalizing m with
  | nil => simp [momentsOf]
  | cons key rest ih =>
    have inner : ∀ moment ∈ r.segmentMoments (r.keyMoments r.depth []) key m, r.Sound moment :=
      sound_segment fun other configured =>
        sound_key r.depth idle configured (by simp [Basis.depth])
    have returns {result : Except SettingsError (Option Value)} {middle : Memory}
        (found : r.find key m = (result, middle)) :
        r.Sound ⟨[], .finds key result, m, middle⟩ := by
      refine ⟨idle, idle.keeps (find_keeps found), by simp, by simp, ?_, by simp⟩
      rintro key result ⟨⟩
      exact found
    intro moment member
    rcases found : r.find key m with ⟨error | value, middle⟩
    · rw [momentsOf_error found] at member
      rcases List.mem_append.1 member with below | here
      · exact inner moment below
      · exact List.mem_singleton.1 here ▸ returns found
    · rw [momentsOf_ok found] at member
      rcases List.mem_append.1 member with below | here
      · exact inner moment below
      · rcases List.mem_cons.1 here with rfl | later
        · exact returns found
        · exact ih (idle.keeps (find_keeps found)) moment later

end Basis

/-- The chain lists the given keys, each once, and exactly these are being computed. -/
def Memory.Lists (m : Memory) (keys : List String) : Prop :=
  m.chain = keys ∧ keys.Nodup ∧ ∀ key, m.isEntered key = true ↔ key ∈ keys

theorem Basis.Computing.lists {r : Basis} {m : Memory} {keys : List String}
    (computing : r.Computing m keys) : m.Lists keys :=
  ⟨computing.chain, computing.nodup, fun key =>
    Memory.isEntered_iff.trans (computing.entered key)⟩

/-- At each moment of a resolution the chain lists the keys whose evaluation encloses it, in order,
and a look-up that has returned, with a value or an error, leaves them as they were. -/
theorem lookups_leave_no_trace {tokens : Tokens} {stack : Stack} {r : Basis}
    (isBasis : Basis.ofLayers tokens stack = .ok r) :
    ∃ result last, r.collect r.keys Memory.empty = (result, last) ∧
      ofTokens tokens stack = result.map Theme.mk ∧
      Nested [] Memory.empty r.history last ∧ last.Lists [] ∧
      ∀ moment ∈ r.history,
        moment.before.Lists moment.within ∧
        moment.after.Lists (moment.event.behind moment.within) ∧
        (∀ path result, moment.event = .answers path result →
          r.get path moment.before = (result, moment.after) ∧
            moment.before.Extends moment.after) ∧
        (∀ key result, moment.event = .finds key result →
          r.find key moment.before = (result, moment.after) ∧
            moment.before.Extends moment.after) ∧
        (∀ key result, moment.event = .refuses key result →
          key ∈ moment.within ∧
            result = .error (.circularReference (moment.within ++ [key]))) ∧
        ∀ key error, moment.event = .leaves key (.error error) →
          moment.after.progress? key = none := by
  refine ⟨_, _, rfl, ?_, Basis.nested_keys r.keys Memory.empty, ?_, fun moment member => ?_⟩
  · rw [ofTokens, isBasis]
  · exact ((Basis.computing_empty r).keeps (Basis.collect_keeps rfl)).lists
  · have sound := Basis.sound_keys r.keys (Basis.computing_empty r) moment member
    refine ⟨sound.before.lists, sound.after.lists, fun path result isEvent => ?_,
      fun key result isEvent => ?_, sound.refuses, fun key error isEvent => ?_⟩
    · have answered := sound.answers path result isEvent
      have extended := r.valueAtPath_extends r.depth path moment.before
      rw [← Basis.get, answered] at extended
      exact ⟨answered, extended⟩
    · have found := sound.finds key result isEvent
      have extended := r.segmentValue_extends r.depth key moment.before
      rw [← Basis.find, found] at extended
      exact ⟨found, extended⟩
    · rw [sound.leaves key _ isEvent, Memory.progress?_leave_error, if_pos rfl]

def forgiving : Table Setting :=
  [("accent", .deferred (.computed (.ask "brand.dark" fun _ =>
      .ask "accent" fun _ => .done (.string "kept")))),
    ("brand", .table [("dark", .deferred (.reference "accent"))])]

theorem forgiving_leaves_no_trace :
    ∃ r theme last, Basis.ofLayers ⟨[]⟩ [.ofTheme forgiving] = .ok r ∧
      ofTokens ⟨[]⟩ [.ofTheme forgiving] = .ok theme ∧
      (theme.get? "brand.dark").bind Value.text? = some "kept" ∧
      Nested [] Memory.empty r.history last ∧ last.Lists [] ∧
      (∃ moment ∈ r.history, moment.before.Lists ["accent", "brand"] ∧
        moment.event =
          .refuses "accent" (.error (.circularReference ["accent", "brand", "accent"]))) ∧
      ∃ moment ∈ r.history, ∃ error, moment.event = .answers "brand.dark" (.error error) ∧
        moment.before.Extends moment.after ∧ moment.after.Lists ["accent"] := by
  obtain ⟨r, isBasis, sections⟩ : ∃ r, Basis.ofLayers ⟨[]⟩ [.ofTheme forgiving] = .ok r ∧
      r = ⟨⟨[]⟩, [forgiving]⟩ := ⟨_, rfl, rfl⟩
  obtain ⟨theme, resolved, texts⟩ := exists_of_textsAt
    (show textsAt ⟨[]⟩ [.ofTheme forgiving] ["brand.dark"] = some [some "kept"] by decide +kernel)
  obtain ⟨result, last, -, -, nested, idle, always⟩ := lookups_leave_no_trace isBasis
  have refused : ∃ moment ∈ r.history,
      moment.within = ["accent", "brand"] ∧ moment.event.refused? = some "accent" := by
    rw [sections]
    decide +kernel
  have failed : ∃ moment ∈ r.history,
      moment.within = ["accent"] ∧ moment.event.failed? = some "brand.dark" := by
    rw [sections]
    decide +kernel
  refine ⟨r, theme, last, isBasis, resolved, by simpa using texts, nested, idle, ?_, ?_⟩
  · obtain ⟨moment, member, within, isRefused⟩ := refused
    obtain ⟨result, isEvent⟩ := Event.eq_of_refused? isRefused
    obtain ⟨before, -, -, -, refuses, -⟩ := always moment member
    rw [within] at before
    obtain ⟨-, rfl⟩ := refuses _ _ isEvent
    rw [within] at isEvent
    exact ⟨moment, member, before, isEvent⟩
  · obtain ⟨moment, member, within, isFailed⟩ := failed
    obtain ⟨error, isEvent⟩ := Event.eq_of_failed? isFailed
    obtain ⟨-, after, answers, -⟩ := always moment member
    rw [within, isEvent] at after
    exact ⟨moment, member, error, isEvent, (answers _ _ isEvent).2, after⟩

end UtilityCss.Theme
