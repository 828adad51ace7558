import UtilityCss.Path.Basic

/-!
When to rebuild. A cycle extracts candidates and, if something changed, generates; only one stage
runs at a time. Changes that arrive meanwhile are kept for one further cycle.
-/

set_option autoImplicit false

namespace UtilityCss

inductive Change where
  | source (path : Path)
  | theme (path : Path)
  deriving DecidableEq, Repr

structure Workload where
  paths : List Path
  reloadTheme : Bool
  deriving DecidableEq, Repr

inductive Instruction where
  | extract (work : Workload)
  | generate
  | settle
  | wait
  deriving DecidableEq, Repr

inductive Stage where
  | extracting
  | generating
  deriving DecidableEq, Repr

/-- The stage that is running, the changes that wait for the next cycle, whether a theme change
opened the current one, and counts of finished cycles and started generations. -/
structure Schedule where
  stage : Option Stage
  rerun : Bool
  pendingPaths : List Path
  pendingTheme : Bool
  themeChanged : Bool
  cycles : Nat
  generations : Nat
  deriving DecidableEq, Repr

inductive ScheduleState where
  | idle
  | extracting
  | generating
  | pendingRerun
  deriving DecidableEq, Repr

def ScheduleState.name : ScheduleState → String
  | .idle => "idle"
  | .extracting => "extracting"
  | .generating => "generating"
  | .pendingRerun => "pending-rerun"

namespace Schedule

def idle : Schedule := ⟨none, false, [], false, false, 0, 0⟩

def isIdle (c : Schedule) : Bool := c.stage.isNone

def state (c : Schedule) : ScheduleState :=
  match c.stage, c.rerun with
  | none, _ => .idle
  | some _, true => .pendingRerun
  | some .extracting, false => .extracting
  | some .generating, false => .generating

def addChange (c : Schedule) : Change → Schedule
  | .source path => { c with pendingPaths := path.insertOrdered c.pendingPaths }
  | .theme _ => { c with pendingTheme := true }

def openCycle (c : Schedule) : Schedule × Instruction :=
  ({ c with
      stage := some .extracting
      rerun := false
      pendingPaths := []
      pendingTheme := false
      themeChanged := c.pendingTheme },
   .extract ⟨c.pendingPaths, c.pendingTheme⟩)

def closeCycle (c : Schedule) : Schedule × Instruction :=
  let c := { c with cycles := c.cycles + 1, themeChanged := false }
  if c.rerun || !c.pendingPaths.isEmpty || c.pendingTheme then c.openCycle
  else ({ c with stage := none }, .settle)

def noteChange (c : Schedule) (change : Change) : Schedule × Instruction :=
  let c := c.addChange change
  if c.isIdle then c.openCycle else ({ c with rerun := true }, .wait)

def noteExtracted (c : Schedule) (grew : Bool) : Schedule × Instruction :=
  if c.stage ≠ some .extracting then (c, .wait)
  else if grew || c.themeChanged then
    ({ c with stage := some .generating, generations := c.generations + 1 }, .generate)
  else c.closeCycle

def noteGenerated (c : Schedule) : Schedule × Instruction :=
  if c.stage ≠ some .generating then (c, .wait) else c.closeCycle

end Schedule

end UtilityCss
