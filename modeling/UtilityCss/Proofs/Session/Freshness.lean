import UtilityCss.Proofs.Session.Run

set_option autoImplicit false

namespace UtilityCss.DevState

open LiveSession

/-- What a session has as its artifact behind an operation, given all attempts to load the inputs
and the artifact from before the operation. -/
def Serves (generator : Generator) (loads : List (Except BuildError ProjectInputs))
    (previous : Option Artifact) (session : LiveSession) : Prop :=
  ∀ inputs, (successes loads).getLast? = some inputs →
    match inputs.render generator session.candidates (successes loads).length with
    | .ok artifact =>
      session.artifact = some artifact ∧ artifact.themeRevision = (successes loads).length ∧
        artifact.candidatesRevision = session.candidates.revision
    | .error _ => session.artifact = previous

variable {session : LiveSession} {places : ProjectPlaces} {generator : Generator}
  {loads : List (Except BuildError ProjectInputs)}

theorem Loaded.rendering_eq (loaded : Loaded session places generator loads) :
    session.rendering = (successes loads).getLast?.map fun inputs =>
      inputs.render generator session.candidates (successes loads).length := by
  rw [rendering, loaded.inputs, loaded.generator, loaded.themeRevision]

theorem Loaded.serves {previous : Option Artifact}
    (loaded : Loaded session places generator loads)
    (left : session.artifact = match session.rendering with
      | some (.ok artifact) => some artifact
      | _ => previous) : Serves generator loads previous session := by
  intro inputs last
  rw [loaded.rendering_eq, last, Option.map_some] at left
  split
  · rename_i artifact made
    rw [made] at left
    exact ⟨left, ProjectInputs.revisions_of_render made⟩
  · rename_i error failed
    rwa [failed] at left

theorem reply_eq_ok {artifact : Artifact} :
    session.reply = .ok artifact ↔ session.artifact = some artifact := by
  unfold reply
  split <;> simp_all

theorem run_append (state : DevState) (steps later : List DevStep) :
    state.run (steps ++ later) = (state.run steps).run later := List.foldl_append

/-- In every run of a dev session the artifact behind each operation is the rendering of the last
inputs that could be loaded, or the one from before if that rendering fails. -/
theorem replies_never_stale (tree : FileTree) (places : ProjectPlaces) (generator : Generator) :
    let start := opened tree places generator
    let first := ProjectInputs.read tree places
    Serves generator [first] none start.session ∧
      (∀ steps step, Serves generator (first :: start.loads (steps ++ [step]))
        (start.run steps).session.artifact (start.run (steps ++ [step])).session) ∧
      ∀ steps later early late, (start.run steps).session.reply = .ok early →
        (start.run (steps ++ later)).session.reply = .ok late →
        early.themeRevision = late.themeRevision →
        early.candidatesRevision = late.candidatesRevision → early.css = late.css := by
  intro start first
  have settled : start.session.Settled := settled_opened tree places generator
  have loaded : Loaded start.session places generator [first] :=
    loaded_opened tree places generator
  refine ⟨?_, ?_, ?_⟩
  · exact loaded.serves
      ((opened_handles tree places generator).artifact_eq (settled_fresh places generator))
  · intro steps step
    have reached := loaded_run settled loaded (steps ++ [step])
    have left := artifact_perform (settled_run settled steps) step
    rw [run_append] at reached ⊢
    exact reached.serves left
  · intro steps later early late earlyReply lateReply theme candidates
    rw [reply_eq_ok] at earlyReply lateReply
    obtain ⟨last, reached, followed⟩ := followed_run (settled_run settled steps) later earlyReply
    rw [run_append, reached] at lateReply
    obtain rfl := Option.some.inj lateReply
    rw [followed.eq_of_same theme candidates]

def onePage : FileTree :=
  ⟨[("page.html", .file "flex".toUTF8), ("site.css", .file "@import \"windsmith\";\n".toUTF8)], []⟩

def brokenPage : FileTree :=
  ⟨[("page.html", .file "flex".toUTF8),
    ("site.css", .file "@import \"windsmith\";\n@config \"./none.toml\";\n".toUTF8)], []⟩

def onePlace : ProjectPlaces := ⟨⟨"/site.css"⟩, none, ⟨"/"⟩⟩

theorem replies_of_broken_page :
    let start := opened onePage onePlace Generator.manifest
    let steps := [.request ⟨"page.html"⟩]
    let later := [.files brokenPage, .notify ⟨"/site.css"⟩]
    ∃ early late, (start.run steps).session.reply = .ok early ∧
      (start.run (steps ++ later)).session.reply = .ok late ∧
      early.themeRevision = late.themeRevision ∧
      early.candidatesRevision = late.candidatesRevision ∧
      (start.run (steps ++ later)).session.diagnostics.length = 1 ∧ early.css = late.css := by
  intro start steps later
  have early : (start.run steps).session.reply =
      .ok ⟨".flex \x7b --ws-candidate: 1; \x7d\n", 1, 1, false⟩ := by decide +kernel
  have late : (start.run (steps ++ later)).session.reply =
      .ok ⟨".flex \x7b --ws-candidate: 1; \x7d\n", 1, 1, false⟩ := by decide +kernel
  exact ⟨_, _, early, late, rfl, rfl, by decide +kernel,
    (replies_never_stale onePage onePlace Generator.manifest).2.2 steps later _ _ early late rfl
      rfl⟩

end UtilityCss.DevState
