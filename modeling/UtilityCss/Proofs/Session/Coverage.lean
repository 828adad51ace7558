import Mathlib.Data.List.Induction
import UtilityCss.Proofs.Session.Freshness
import UtilityCss.Proofs.Session.Reading

set_option autoImplicit false

namespace UtilityCss

def Generator.bundled : Option String → Generator
  | none => Generator.manifest
  | some refused => Generator.refusing refused Generator.manifest

def Artifact.Covers (artifact : Artifact) (candidates : List String) : Prop :=
  ∀ candidate ∈ candidates, (Generator.rule candidate).toList <:+: artifact.css.toList

section Rules

variable {refused : Option String} {theme : Theme} {pool : CandidatePool} {css : String}
  {inputs : ProjectInputs} {artifact : Artifact} {revision : Nat}

theorem Generator.rule_of_manifest (made : Generator.manifest theme pool = .ok css) :
    ∀ candidate ∈ pool.items, (Generator.rule candidate).toList <:+: css.toList := by
  intro candidate member
  obtain rfl := Except.ok.inj made
  rw [String.toList_append, String.toList_join, List.flatMap_def, List.map_map]
  exact List.infix_append_of_infix_right
    (List.infix_of_mem_flatten (List.mem_map_of_mem (f := String.toList ∘ rule) member))

theorem Generator.rule_of_bundled (made : Generator.bundled refused theme pool = .ok css) :
    ∀ candidate ∈ pool.items, (Generator.rule candidate).toList <:+: css.toList := by
  cases refused with
  | none => exact rule_of_manifest made
  | some refused =>
    rw [bundled, refusing] at made
    split_ifs at made
    exact rule_of_manifest made

theorem Artifact.infix_textOf (sheet : Stylesheet) (generated : String) :
    generated.toList <:+: (textOf sheet generated).toList := by
  rw [textOf, String.toList_append, String.toList_append, List.append_assoc]
  exact List.infix_append' _ _ _

theorem ProjectInputs.covers_of_render
    (made : inputs.render (Generator.bundled refused) pool revision = .ok artifact)
    (generated : artifact.passthrough = false) : artifact.Covers pool.items := by
  rcases render_eq_ok.1 made with ⟨-, theme, css, -, written, rfl⟩ | ⟨-, rfl⟩
  · exact fun candidate member => (Generator.rule_of_bundled written candidate member).trans
      (Artifact.infix_textOf _ css)
  · cases generated

end Rules

namespace DevState

open LiveSession

variable {state : DevState} {places : ProjectPlaces} {refused : Option String}
  {loads : List (Except BuildError ProjectInputs)} {artifact : Artifact}

theorem growsInto_run (settled : state.session.Settled) (steps : List DevStep) :
    state.session.candidates.GrowsInto (state.run steps).session.candidates := by
  induction steps generalizing state with
  | nil => exact .refl _
  | cons step steps ih =>
    have next := ih (settled_perform settled step)
    rw [candidates_perform settled] at next
    exact (state.session.candidates.growsInto_merge _).trans next

structure MadeNow (session : LiveSession) (artifact : Artifact) : Prop where
  revision : artifact.candidatesRevision = session.candidates.revision
  covers : artifact.passthrough = false → artifact.Covers session.candidates.items

theorem madeNow_of_rendering {session : LiveSession}
    (loaded : Loaded session places (Generator.bundled refused) loads)
    (made : session.rendering = some (.ok artifact)) : MadeNow session artifact := by
  obtain ⟨inputs, -, render⟩ := Option.map_eq_some_iff.1 made
  rw [loaded.generator] at render
  exact ⟨(ProjectInputs.revisions_of_render render).2, ProjectInputs.covers_of_render render⟩

/-- What the runs of a session keep of its candidates. A point of a run is given by the steps up to
it. -/
structure KeepsCandidates (start : DevState) : Prop where
  grows : ∀ steps later, (start.run steps).session.candidates.GrowsInto
    (start.run (steps ++ later)).session.candidates
  covers : ∀ steps artifact, (start.run steps).session.reply = .ok artifact →
    artifact.passthrough = false →
    (∃ before, before <+: steps ∧
      (start.run before).session.candidates.revision = artifact.candidatesRevision) ∧
    ∀ point, point <+: steps ∨ steps <+: point →
      (start.run point).session.candidates.revision ≤ artifact.candidatesRevision →
      artifact.Covers (start.run point).session.candidates.items
  current : ∀ steps artifact, (start.run steps).session.rendering = some (.ok artifact) →
    (start.run steps).session.reply = .ok artifact ∧
    (artifact.passthrough = false → ∀ before, before <+: steps →
      artifact.Covers (start.run before).session.candidates.items)
  regenerated : ∀ steps step raw artifact, (start.run steps).session.reply = .ok raw →
    raw.passthrough = true → (start.run (steps ++ [step])).session.reply = .ok artifact →
    artifact.passthrough = false → ∀ before, before <+: steps ++ [step] →
      artifact.Covers (start.run before).session.candidates.items
  promoted : ∀ steps later inputs artifact, (start.run steps).session.inputs = some inputs →
    inputs.stylesheet.isRoot = false →
    (start.run (steps ++ later)).session.reply = .ok artifact → artifact.passthrough = false →
    ∀ before, before <+: steps → artifact.Covers (start.run before).session.candidates.items

section Run

variable {start : DevState} {steps : List DevStep}

theorem growsInto_between (settled : start.session.Settled) {before after : List DevStep}
    (earlier : before <+: after) : (start.run before).session.candidates.GrowsInto
      (start.run after).session.candidates := by
  obtain ⟨later, rfl⟩ := earlier
  rw [run_append]
  exact growsInto_run (settled_run settled before) later

def MadeBefore (start : DevState) (steps : List DevStep) (artifact : Artifact) : Prop :=
  ∃ before, before <+: steps ∧ MadeNow (start.run before).session artifact

-- By induction on the run from its end: a step makes the artifact again or leaves the one before.
theorem madeBefore_run (settled : start.session.Settled)
    (loaded : Loaded start.session places (Generator.bundled refused) loads)
    (first : ∀ artifact, start.session.artifact = some artifact → MadeNow start.session artifact)
    (kept : (start.run steps).session.artifact = some artifact) : start.MadeBefore steps artifact := by
  induction steps using List.reverseRecOn generalizing artifact with
  | nil => exact ⟨[], List.prefix_rfl, first artifact kept⟩
  | append_singleton steps step ih =>
    have now := loaded_run settled loaded (steps ++ [step])
    have left := artifact_perform (settled_run settled steps) step
    rw [run_append] at kept now
    have same : ((start.run steps).run [step]) = (start.run steps).perform step := rfl
    rw [same] at kept now
    rw [kept] at left
    split at left
    · next other made =>
      obtain rfl := Option.some.inj left
      refine ⟨steps ++ [step], List.prefix_rfl, ?_⟩
      rw [run_append, same]
      exact madeNow_of_rendering now made
    · obtain ⟨before, earlier, made⟩ := ih left.symm
      exact ⟨before, earlier.trans (List.prefix_append _ _), made⟩

theorem MadeBefore.covers (made : start.MadeBefore steps artifact)
    (settled : start.session.Settled) (generated : artifact.passthrough = false)
    {point : List DevStep} (onWay : point <+: steps ∨ steps <+: point)
    (early : (start.run point).session.candidates.revision ≤ artifact.candidatesRevision) :
    artifact.Covers (start.run point).session.candidates.items := by
  obtain ⟨before, earlier, made⟩ := made
  intro candidate member
  refine made.covers generated candidate ?_
  rw [made.revision] at early
  -- Points of one run stand one behind the other.
  have comparable : point <+: before ∨ before <+: point := by
    rcases onWay with inside | beyond
    · exact List.prefix_or_prefix_of_prefix inside earlier
    · exact .inr (earlier.trans beyond)
  rcases comparable with sooner | after
  · exact (growsInto_between settled sooner).kept candidate member
  · exact (growsInto_between settled after).subset_of_le early candidate member

theorem isPassedThrough_of_inputs {session : LiveSession} {inputs : ProjectInputs}
    (loaded : session.inputs = some inputs) (plain : inputs.stylesheet.isRoot = false) :
    ∃ artifact, session.rendering = some (.ok artifact) ∧ artifact.passthrough = true := by
  refine ⟨⟨inputs.stylesheet.raw, session.themeRevision, session.candidates.revision, true⟩, ?_, rfl⟩
  simp [rendering, loaded, ProjectInputs.render, ProjectInputs.themeIfNeeded, Artifact.render, plain,
    bind, Except.bind]

theorem covers_of_rendering (settled : start.session.Settled)
    (made : start.MadeBefore steps artifact)
    (rendered : (start.run steps).session.rendering = some (.ok artifact))
    (generated : artifact.passthrough = false) {before : List DevStep} (earlier : before <+: steps) :
    artifact.Covers (start.run before).session.candidates.items := by
  refine made.covers settled generated (.inl earlier) ?_
  rw [(revisions_of_rendering rendered).2]
  exact (growsInto_between settled earlier).revision

-- The artifact before was passed through, so a generated one is not what it left.
theorem rendering_of_regenerated (settled : start.session.Settled) {step : DevStep} {raw : Artifact}
    (early : (start.run steps).session.reply = .ok raw) (passed : raw.passthrough = true)
    (late : (start.run (steps ++ [step])).session.reply = .ok artifact)
    (generated : artifact.passthrough = false) :
    (start.run (steps ++ [step])).session.rendering = some (.ok artifact) := by
  have left := artifact_perform (settled_run settled steps) step
  have same : (start.run steps).perform step = start.run (steps ++ [step]) :=
    (run_append start steps [step]).symm
  rw [same, reply_eq_ok.1 early, reply_eq_ok.1 late] at left
  split at left
  · next other rendered =>
    obtain rfl := Option.some.inj left
    exact rendered
  · obtain rfl := Option.some.inj left
    exact absurd (passed.symm.trans generated) Bool.noConfusion

theorem revision_le_of_plain (settled : start.session.Settled) {later : List DevStep}
    {inputs : ProjectInputs} (isLoaded : (start.run steps).session.inputs = some inputs)
    (plain : inputs.stylesheet.isRoot = false)
    (reply : (start.run (steps ++ later)).session.reply = .ok artifact) :
    (start.run steps).session.candidates.revision ≤ artifact.candidatesRevision := by
  obtain ⟨raw, rendered, passed⟩ := isPassedThrough_of_inputs isLoaded plain
  have kept := (settled_run settled steps).rendered raw rendered
  obtain ⟨last, reached, followed⟩ := followed_run (settled_run settled steps) later kept
  rw [← run_append, reply_eq_ok.1 reply] at reached
  obtain rfl := Option.some.inj reached
  rw [← (revisions_of_rendering rendered).2]
  rcases followed with rfl | ⟨-, candidates, -⟩
  · exact Nat.le_refl _
  · exact candidates

end Run

theorem madeNow_opened {tree : FileTree}
    (kept : (opened tree places (Generator.bundled refused)).session.artifact = some artifact) :
    MadeNow (opened tree places (Generator.bundled refused)).session artifact := by
  have left := (opened_handles tree places (Generator.bundled refused)).artifact_eq
    (settled_fresh places (Generator.bundled refused))
  rw [kept] at left
  split at left
  · next other made =>
    obtain rfl := Option.some.inj left
    exact madeNow_of_rendering (loaded_opened tree places (Generator.bundled refused)) made
  · cases left

/-- In every run of a dev session, whatever happens to the files and whatever cannot be read,
resolved or generated, the candidates only grow, and generated replies have the rules of all
candidates up to the revision that they report. -/
theorem candidates_never_lost (tree : FileTree) (places : ProjectPlaces) (refused : Option String) :
    KeepsCandidates (opened tree places (Generator.bundled refused)) := by
  have settled := settled_opened tree places (Generator.bundled refused)
  have made (steps : List DevStep) (artifact : Artifact)
      (kept : ((opened tree places (Generator.bundled refused)).run steps).session.artifact =
        some artifact) :
      MadeBefore (opened tree places (Generator.bundled refused)) steps artifact :=
    madeBefore_run settled (loaded_opened tree places (Generator.bundled refused))
      (fun artifact => madeNow_opened) kept
  constructor
  · exact fun steps later => growsInto_between settled (List.prefix_append steps later)
  · intro steps artifact reply generated
    have isMade := made steps artifact (reply_eq_ok.1 reply)
    obtain ⟨before, earlier, now⟩ := id isMade
    exact ⟨⟨before, earlier, now.revision.symm⟩,
      fun point onWay early => isMade.covers settled generated onWay early⟩
  · intro steps artifact rendered
    have kept := (settled_run settled steps).rendered artifact rendered
    exact ⟨reply_eq_ok.2 kept, fun generated before earlier =>
      covers_of_rendering settled (made steps artifact kept) rendered generated earlier⟩
  · intro steps step raw artifact early passed late generated before earlier
    have rendered := rendering_of_regenerated settled early passed late generated
    exact covers_of_rendering settled (made _ artifact (reply_eq_ok.1 late)) rendered generated earlier
  · intro steps later inputs artifact isLoaded plain reply generated before earlier
    refine (made _ artifact (reply_eq_ok.1 reply)).covers settled generated
      (.inl (earlier.trans (List.prefix_append _ _))) ?_
    exact Nat.le_trans (growsInto_between settled earlier).revision
      (revision_le_of_plain settled isLoaded plain reply)

def twoPages : FileTree :=
  ⟨[("more.html", .file "grid".toUTF8), ("page.html", .file "flex".toUTF8),
    ("site.css", .file "@import \"windsmith\";\n".toUTF8)], []⟩

def plainPages : FileTree :=
  ⟨[("more.html", .file "grid".toUTF8), ("page.html", .file "flex".toUTF8),
    ("site.css", .file "a \x7b\x7d\n".toUTF8)], []⟩

theorem never_lost_of_plainPages :
    let start := opened twoPages onePlace (Generator.bundled (some "hidden"))
    let steps := [.request ⟨"page.html"⟩, .files plainPages, .notify ⟨"/site.css"⟩,
      .request ⟨"more.html"⟩, .files twoPages]
    let step := DevStep.notify ⟨"/site.css"⟩
    ∃ raw artifact, (start.run steps).session.reply = .ok raw ∧ raw.passthrough = true ∧
      (start.run (steps ++ [step])).session.reply = .ok artifact ∧ artifact.passthrough = false ∧
      (start.run steps).session.candidates.items = ["flex", "grid"] ∧
      artifact.Covers (start.run steps).session.candidates.items := by
  intro start steps step
  have early : (start.run steps).session.reply = .ok ⟨"a \x7b\x7d\n", 2, 2, true⟩ := by decide +kernel
  have late : (start.run (steps ++ [step])).session.reply =
      .ok ⟨".flex \x7b --ws-candidate: 1; \x7d\n.grid \x7b --ws-candidate: 1; \x7d\n", 3, 2, false⟩ := by
    decide +kernel
  have seen : (start.run steps).session.candidates.items = ["flex", "grid"] := by decide +kernel
  have keeps : KeepsCandidates start := candidates_never_lost twoPages onePlace (some "hidden")
  have covers := keeps.regenerated steps step _ _ early rfl late rfl steps
    (List.prefix_append steps [step])
  exact ⟨_, _, early, rfl, late, rfl, seen, covers⟩

end DevState

end UtilityCss
