import Mathlib.Data.String.Basic
import UtilityCss.Proofs.Theme.Outcome
import UtilityCss.Proofs.Theme.Replay

set_option autoImplicit false

namespace UtilityCss

namespace Theme

open UtilityCss.Config

namespace Basis

variable (r : Basis)

def merged? (value? : String → Option Value) (key : String) : Option (Option Value) :=
  if key ∈ r.configKeys then folded? value? key r.sections none else some none

/-- The equations between the values of a theme. -/
structure Solves (theme : Theme) : Prop where
  keys : ∀ key ∈ theme.keys, key ∈ r.keys
  value : ∀ key ∈ r.keys, ∃ merged, r.merged? theme.get? key = some merged ∧
    Table.get? key theme.entries = Value.overlay? (r.tokenTable? key) merged

structure Agrees (known : Table (Option Value)) (theme : Theme) : Prop where
  listed : ∀ key value, Table.get? key known = some value →
    Table.get? key theme.entries = Value.overlay? (r.tokenTable? key) value
  others : ∀ key, key ∉ r.configKeys → isAliased key = false →
    Table.get? key theme.entries = r.tokenTable? key

variable {r} {known : Table (Option Value)} {theme : Theme} {key segment path : String}
  {value : Option Value}

theorem Agrees.get?_eq (agrees : r.Agrees known theme) (plain : isAliased segment = false)
    (listed : ∀ key, r.layerKey? segment = some key → (Table.get? key known).isSome) :
    r.shownSegment known segment = Table.get? segment theme.entries := by
  unfold shownSegment
  by_cases configured : segment ∈ r.configKeys
  · have read := layerKey?_self configured
    obtain ⟨value, found⟩ := Option.isSome_iff_exists.1 (listed segment read)
    rw [read, agrees.listed segment value found, Option.bind_some, found, Option.join_some]
  · have unread : r.layerKey? segment = none := by simp [layerKey?, configured, plain]
    rw [unread, agrees.others segment configured plain]
    exact overlay?_none _

theorem Agrees.shown_eq (agrees : r.Agrees known theme) (plain : Plain path)
    (listed : ∀ segment, firstSegment? path = some segment → ∀ key,
      r.layerKey? segment = some key → (Table.get? key known).isSome) :
    r.shown known path = theme.get? path := by
  rcases split : splitKeyPath path with fault | ⟨_ | ⟨first, rest⟩⟩
  · simp [shown, Theme.get?, split]
  · simp [shown, Theme.get?, split]
  · have isFirst : firstSegment? path = some first := by simp [firstSegment?, split]
    simp [shown, Theme.get?, split, agrees.get?_eq (plain first isFirst) (listed first isFirst)]

theorem Agrees.folded (agrees : r.Agrees known theme) (only : r.OnlyReferences)
    (plain : ∀ path ∈ r.pathsOf key, Plain path) (yields : r.Yields known key value) :
    folded? theme.get? key r.sections none = some value := by
  have same : (r.planOf key).answered theme.get? = .ok value := by
    rw [← yields.answered]
    refine (Plan.answered_congr fun path member => ?_).1.symm
    have isPlain := plain path ((only.planOf key).asked _ path member)
    -- A plain reference is read off a listed key, never off the tokens alone.
    apply agrees.shown_eq isPlain
    intro segment first other read
    rcases yields.reads path member other ((readKey?_of_first first).trans read) with
      listed | ⟨raw, -⟩
    · exact listed
    · exact absurd raw (not_raw_of_plain isPlain)
  rw [← toOption_answered_ofSections theme.get? (only key) none]
  exact congrArg Except.toOption same

theorem Solves.others (solves : r.Solves theme) (unconfigured : key ∉ r.configKeys)
    (plain : isAliased key = false) : Table.get? key theme.entries = r.tokenTable? key := by
  by_cases member : key ∈ r.keys
  · obtain ⟨merged, isMerged, found⟩ := solves.value key member
    rw [merged?, if_neg unconfigured, Option.some.injEq] at isMerged
    rw [found, ← isMerged]
    exact overlay?_none _
  · have absent : Table.get? key theme.entries = none :=
      Table.get?_eq_none_iff.2 fun inside => member (solves.keys key inside)
    rw [absent, eq_comm, ← Option.not_isSome_iff_eq_none]
    exact fun tokens => member (mem_keys_of_tokenTable? plain tokens)

theorem Solves.agrees (solves : r.Solves theme) (only : r.OnlyReferences)
    (plain : ∀ key, ∀ path ∈ r.pathsOf key, Plain path) (replayable : r.Replayable known)
    (configured : ∀ key value, Table.get? key known = some value → key ∈ r.configKeys) :
    r.Agrees known theme := by
  induction replayable with
  | nil => exact ⟨by simp [Table.get?], fun _ => solves.others⟩
  | @cons first last known rest fresh yields ih =>
    have tail : r.Agrees known theme := ih fun key value found =>
      configured key value (by rw [Table.get?_cons_of_fresh fresh (by simp [found]), found])
    refine ⟨fun key value found => ?_, tail.others⟩
    by_cases same : key = first
    · -- The equation of the last key speaks of the keys before it alone.
      obtain rfl : last = value := by simpa [Table.get?, same] using found
      subst same
      have inside := configured key last found
      obtain ⟨merged, isMerged, shows⟩ := solves.value key (mem_keys_of_mem_configKeys inside)
      rw [merged?, if_pos inside, tail.folded only (plain key) yields,
        Option.some.injEq] at isMerged
      rw [shows, isMerged]
    · rw [Table.get?, if_neg same] at found
      exact tail.listed key value found

theorem Solves.unique {other : Theme} (solves : r.Solves theme) (also : r.Solves other)
    (agrees : r.Agrees known theme) (agreesAlso : r.Agrees known other)
    (complete : ∀ key ∈ r.configKeys, (Table.get? key known).isSome) (key : String) :
    Table.get? key other.entries = Table.get? key theme.entries := by
  by_cases member : key ∈ r.keys
  · rcases mem_keys member with configured | ⟨unconfigured, plain⟩
    · obtain ⟨value, found⟩ := Option.isSome_iff_exists.1 (complete key configured)
      rw [agrees.listed key value found, agreesAlso.listed key value found]
    · rw [agrees.others key unconfigured plain, agreesAlso.others key unconfigured plain]
  · rw [Table.get?_eq_none_iff.2 fun inside => member (solves.keys key inside),
      Table.get?_eq_none_iff.2 fun inside => member (also.keys key inside)]

end Basis

namespace Basis

variable {r : Basis} {m : Memory} {theme : Theme}

structure Explains (r : Basis) (m : Memory) (theme : Theme) : Prop extends r.Leaves m theme where
  plain : ∀ key, ∀ path ∈ r.pathsOf key, Plain path
  replayable : r.Replayable m.settled

theorem explains_of_resolved {tokens : Tokens} {stack : Stack}
    (plain : ∀ layer ∈ stack, layer.config.Refers Plain)
    (resolved : ofTokens tokens stack = .ok theme) :
    ∃ r m, Basis.ofLayers tokens stack = .ok r ∧ r.Explains m theme := by
  obtain ⟨r, isBasis, leaves⟩ := leaves_of_resolved
    (fun layer member => (plain layer member).mono fun _ _ _ => trivial) resolved
  have plainPaths := plain_of_stack isBasis plain
  have replayable := leaves.tracks.settled.replayable leaves.only
    fun key (_ : (fun _ => true) key = true) path member =>
      ⟨fun _ _ raw => absurd raw (not_raw_of_plain (plainPaths key path member)), fun _ _ _ => rfl⟩
  rw [List.filter_true] at replayable
  exact ⟨r, _, isBasis, leaves, plainPaths, replayable⟩

namespace Explains

theorem agrees (explains : r.Explains m theme) : r.Agrees m.settled theme where
  listed key value found := by
    have configured := explains.tracks.settled.configured key value found
    rw [explains.get?_eq (.inl configured), shownSegment, layerKey?_self configured,
      Option.bind_some, found, Option.join_some]
  others key unconfigured plain := by
    rw [explains.get?_eq (.inr plain),
      shownSegment_of_unread (by simp [layerKey?, unconfigured, plain])]

theorem agrees_behind (explains : r.Explains m theme) (key : String) :
    r.Agrees (Table.behind key m.settled) theme where
  listed other value found := by
    apply explains.agrees.listed other value
    have listed : (Table.get? other (Table.behind key m.settled)).isSome := by simp [found]
    rw [Table.get?_of_behind (Memory.distinct_settled explains.tracks.valid) listed, found]
  others := explains.agrees.others

theorem solves (explains : r.Explains m theme) : r.Solves theme where
  keys key inside := by
    by_contra absent
    have missing := explains.shows key
    rw [if_neg absent, Table.get?_eq_none_iff] at missing
    exact missing inside
  value key member := by
    by_cases configured : key ∈ r.configKeys
    · obtain ⟨value, found⟩ := Option.isSome_iff_exists.1 (explains.complete key configured)
      refine ⟨value, ?_, explains.agrees.listed key value found⟩
      rw [merged?, if_pos configured]
      exact (explains.agrees_behind key).folded explains.only (explains.plain key)
        (explains.replayable.yields found)
    · have plain := ((mem_keys member).resolve_left configured).2
      refine ⟨none, by rw [merged?, if_neg configured], ?_⟩
      rw [explains.agrees.others key configured plain, overlay?_none]

theorem unique (explains : r.Explains m theme) {other : Theme} (solves : r.Solves other)
    (key : String) : Table.get? key other.entries = Table.get? key theme.entries :=
  explains.solves.unique solves explains.agrees
    (solves.agrees explains.only explains.plain explains.replayable
      explains.tracks.settled.configured)
    explains.complete key

theorem collect (explains : r.Explains m theme) {order : List String}
    (all : ∀ key, key ∈ order ↔ key ∈ r.keys) :
    ∃ entries, (r.collect order Memory.empty).1 = .ok entries ∧
      ∀ key, Table.get? key entries = Table.get? key theme.entries := by
  have nothing : Consistent m.settled Memory.empty := fun key value _ => .inl rfl
  have deep : m.settled.length ≤ r.depth := Nat.le_succ_of_le (length_settled_le explains.tracks)
  obtain ⟨after, ran, -⟩ := explains.replayable.collect explains.only deep order
    (fun key member other read => explains.complete other (layerKey?_mem read)) nothing
  refine ⟨_, congrArg Prod.fst ran, ?_⟩
  intro key
  rw [Table.get?_filterMap_keys, explains.shows]
  simp only [all]

end Explains

end Basis

/-- A resolution without namespaces in its references finds the only solution of the equations, and
every other order of the keys leads to the same one. -/
theorem ofTokens_only_solution {tokens : Tokens} {stack : Stack} {theme : Theme}
    (plain : ∀ layer ∈ stack, layer.config.Refers Plain)
    (resolved : ofTokens tokens stack = .ok theme) :
    ∃ r, Basis.ofLayers tokens stack = .ok r ∧ r.Solves theme ∧
      (∀ other, r.Solves other →
        ∀ key, Table.get? key other.entries = Table.get? key theme.entries) ∧
      ∀ order, (∀ key, key ∈ order ↔ key ∈ r.keys) → ∃ entries,
        (r.collect order Memory.empty).1 = .ok entries ∧
          ∀ key, Table.get? key entries = Table.get? key theme.entries := by
  obtain ⟨r, known, isBasis, explains⟩ := Basis.explains_of_resolved plain resolved
  exact ⟨r, isBasis, explains.solves, fun other solves => explains.unique solves,
    fun order all => explains.collect all⟩

def forward : Stack :=
  [.ofTheme [("accent", .deferred (.reference "colors.brand")),
    ("colors", .table [("brand", .deferred (.reference "palette.base"))])],
   .ofTheme [("extend", .table [("colors", .table [("blue", .ofText "blue")])]),
    ("palette", .table [("base", .ofText "teal")])]]

theorem forward_plain : ∀ layer ∈ forward, layer.config.Refers Plain := by
  have first : firstSegment? "colors.brand" = some "colors" := by decide +kernel
  have second : firstSegment? "palette.base" = some "palette" := by decide +kernel
  have colors : Plain "colors.brand" := plain_of_first first (by decide +kernel)
  have palette : Plain "palette.base" := plain_of_first second (by decide +kernel)
  simp [forward, Layer.ofTheme, Setting.Refers, Setting.deferredValues, Setting.deferredEntries,
    Setting.ofText, colors, palette]

theorem mem_forward_keys {r : Basis}
    (isBasis : Basis.ofLayers ⟨[("--color-red", "red")]⟩ forward = .ok r) (key : String) :
    key ∈ ["palette", "colors", "accent"] ↔ key ∈ r.keys := by
  have keys : (Basis.ofLayers ⟨[("--color-red", "red")]⟩ forward).toOption.map Basis.keys =
      some ["accent", "colors", "palette"] := by decide +kernel
  rw [isBasis] at keys
  have same : r.keys = ["accent", "colors", "palette"] := Option.some.inj keys
  rw [same]
  simp only [List.mem_cons, List.not_mem_nil, or_false]
  tauto

theorem ofTokens_forward :
    ∃ theme, ∃ r : Basis, ofTokens ⟨[("--color-red", "red")]⟩ forward = .ok theme ∧
      ["accent", "colors.red", "colors.blue"].map
        (fun path => (theme.get? path).bind Value.text?) =
          [some "teal", some "red", some "blue"] ∧
      r.Solves theme ∧ ∃ entries,
        (r.collect ["palette", "colors", "accent"] Memory.empty).1 = .ok entries ∧
          ∀ key, Table.get? key entries = Table.get? key theme.entries := by
  have texts : textsAt ⟨[("--color-red", "red")]⟩ forward ["accent", "colors.red", "colors.blue"] =
      some [some "teal", some "red", some "blue"] := by decide +kernel
  obtain ⟨theme, resolved, shown⟩ := exists_of_textsAt texts
  obtain ⟨r, isBasis, solves, -, orders⟩ := ofTokens_only_solution forward_plain resolved
  exact ⟨theme, r, resolved, shown, solves, orders _ (mem_forward_keys isBasis)⟩

def reserved : Stack :=
  [.ofTheme [("extend", .table [("colors", .table [("red", .ofText "red")])])]]

theorem extend_unsolved :
    (∀ layer ∈ reserved, layer.config.Refers Plain) ∧
      ∃ theme r, ofTokens ⟨[("--extend-a", "1")]⟩ reserved = .ok theme ∧
        Basis.ofLayers ⟨[("--extend-a", "1")]⟩ reserved = .ok r ∧ "extend" ∈ r.keys ∧
        ¬ ∃ merged, folded? theme.get? "extend" r.sections none = some merged ∧
          Table.get? "extend" theme.entries =
            Value.overlay? (r.tokenTable? "extend") merged := by
  have texts : textsAt ⟨[("--extend-a", "1")]⟩ reserved ["extend.colors.red"] = some [none] := by
    decide +kernel
  obtain ⟨theme, resolved, shown⟩ := exists_of_textsAt texts
  refine ⟨?_, theme, ⟨⟨[("--extend-a", "1")]⟩,
    [[("extend", .table [("colors", .table [("red", .ofText "red")])])]]⟩,
    resolved, rfl, by decide +kernel, ?_⟩
  · simp [reserved, Layer.ofTheme, Setting.Refers, Setting.deferredValues,
      Setting.deferredEntries, Setting.ofText]
  · rintro ⟨merged, isMerged, found⟩
    have additions : some (some (Value.table [("colors", .table [("red", .string "red")])])) =
      some merged := isMerged
    have tokens : Basis.tokenTable? ⟨⟨[("--extend-a", "1")]⟩,
        [[("extend", .table [("colors", .table [("red", .ofText "red")])])]]⟩ "extend" =
      some (.table [("a", .string "1")]) := by rfl
    have split : splitKeyPath "extend.colors.red" = .ok ["extend", "colors", "red"] := by
      decide +kernel
    rw [← Option.some.inj additions, tokens] at found
    simp [Theme.get?, split, found, Value.overlay?, Value.merge, Value.mergeEntries, Table.insert,
      Table.get?, follow, Value.text?, -String.lt_iff_ltb] at shown

end Theme

end UtilityCss
