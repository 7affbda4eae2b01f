import MrBoxington.Lib.Runs
import MrBoxington.TaskManifest.RunState

/-!
# Runs that share a task manifest

Any number of runs, in any number of processes, begin from the manifest on disk,
record predictions and commit. A commit first copies the run's state, and then
loads, merges and persists the manifest in one step under the task's lock.
-/

namespace MrBoxington.TaskManifest

open Protocol (Digest ActionPrediction TaskActionManifest Json)

/-- What a run did: the manifest that it loaded, and what it recorded, the last
first. -/
structure RunHistory where
  loaded : Option TaskActionManifest
  recorded : List ActionPrediction

namespace RunHistory

/-- Before a run begins. -/
def empty : RunHistory := ⟨none, []⟩

/-- The history after one more record. -/
def record (history : RunHistory) (prediction : ActionPrediction) : RunHistory :=
  { history with recorded := prediction :: history.recorded }

/-- The value that the run loaded for an invocation. -/
def loadedValue (history : RunHistory) (invocation : Digest) : Option ActionPrediction :=
  Keyed.lookup ActionPrediction.invocation (manifestPredictions history.loaded) invocation

/-- The value that the run recorded last for an invocation. -/
def lastRecorded (history : RunHistory) (invocation : Digest) : Option ActionPrediction :=
  Keyed.lookup ActionPrediction.invocation history.recorded invocation

/-- The last recorded value for an invocation, if it differs from the loaded one. -/
def changedValue (history : RunHistory) (invocation : Digest) : Option ActionPrediction :=
  if history.lastRecorded invocation = history.loadedValue invocation then none
  else history.lastRecorded invocation

end RunHistory

/-- What the manifest should hold for an invocation: the value of the latest commit
that changed it, or else the initial value. Commits are listed latest first. -/
def committedValue (initial : Option TaskActionManifest) (commits : List RunHistory)
    (invocation : Digest) : Option ActionPrediction :=
  (commits.findSome? fun history => history.changedValue invocation).or
    (Keyed.lookup ActionPrediction.invocation (manifestPredictions initial) invocation)

/-- A commit between the copy of its run's state and its merge. -/
structure PendingCommit (ρ : Type) where
  run : ρ
  state : TaskActionState
  history : RunHistory

/-- The manifest of one task, the runs of it, and the commits that are on their
way. -/
structure TaskState (ρ κ : Type) where
  disk : Option TaskActionManifest
  runs : ρ → Option TaskActionState
  history : ρ → RunHistory
  committing : κ → Option (PendingCommit ρ)
  /-- What the runs had done when they committed, latest commit first. -/
  commits : List RunHistory

/-- What happens. -/
inductive TaskEvent (ρ κ : Type) where
  | begin (run : ρ)
  | record (run : ρ) (prediction : ActionPrediction)
  | commitHits (run : ρ)
  | snapshot (run : ρ) (commit : κ)
  | merge (commit : κ)
  | abandon (run : ρ)
  | abandonCommit (commit : κ)

section Steps

variable {ρ κ : Type} [DecidableEq ρ] [DecidableEq κ]

namespace TaskState

/-- The state with another run. -/
def setRun (s : TaskState ρ κ) (run : ρ) (state : Option TaskActionState)
    (history : RunHistory) : TaskState ρ κ :=
  { s with
    runs := Function.update s.runs run state
    history := Function.update s.history run history }

/-- The state with another commit on its way. -/
def setCommit (s : TaskState ρ κ) (commit : κ) (pending : Option (PendingCommit ρ)) :
    TaskState ρ κ :=
  { s with committing := Function.update s.committing commit pending }

/-- The state after a commit. -/
def committed (s : TaskState ρ κ) (disk : Option TaskActionManifest) (history : RunHistory) :
    TaskState ρ κ :=
  { s with disk := disk, commits := history :: s.commits }

end TaskState

/-- One step of the runs of a task. -/
inductive TaskStep (json : Json) (task : String) :
    TaskEvent ρ κ → TaskState ρ κ → TaskState ρ κ → Prop
  /-- A run begins with the manifest on disk, under an identity of its own or instead
  of an earlier run. -/
  | begin {s} (run : ρ) (htask : Protocol.validTaskIdentity task) :
      TaskStep json task (.begin run) s
        (s.setRun run (some (beginTask task s.disk)) ⟨s.disk, []⟩)
  /-- A prediction is recorded. A run that never began records from nothing. -/
  | record {s state prediction} (run : ρ)
      (hrecord : recordActionPrediction json ((s.runs run).getD .default) prediction
        = .ok state) :
      TaskStep json task (.record run prediction) s
        (s.setRun run (some state) ((s.history run).record prediction))
  /-- A run that changed nothing commits without touching the manifest. -/
  | commitHits {s state} (run : ρ) (hrun : s.runs run = some state)
      (hloaded : state.baselineLoaded) (hhits : state.hitOnly) :
      TaskStep json task (.commitHits run) s
        ((s.setRun run none .empty).committed s.disk (s.history run))
  | snapshot {s state} (run : ρ) (commit : κ) (hrun : s.runs run = some state)
      (hloaded : state.baselineLoaded) (hhits : state.hitOnly = false)
      (hfree : s.committing commit = none) :
      TaskStep json task (.snapshot run commit) s
        (s.setCommit commit (some ⟨run, state, s.history run⟩))
  | merge {s pending manifest} (commit : κ) (hpending : s.committing commit = some pending)
      (hmerge : commitTaskActions json s.disk pending.state = .ok manifest) :
      TaskStep json task (.merge commit) s
        (((s.setCommit commit none).setRun pending.run none .empty).committed (some manifest)
          pending.history)
  | mergeFailed {s pending message} (commit : κ) (hpending : s.committing commit = some pending)
      (hmerge : commitTaskActions json s.disk pending.state = .error message) :
      TaskStep json task (.merge commit) s (s.setCommit commit none)
  | abandon {s} (run : ρ) : TaskStep json task (.abandon run) s (s.setRun run none .empty)
  | abandonCommit {s} (commit : κ) :
      TaskStep json task (.abandonCommit commit) s (s.setCommit commit none)

/-- The manifest that a commit would persist is within the bounds. -/
def TaskState.MergeFits (json : Json) (s : TaskState ρ κ) (commit : κ) : Prop :=
  ∀ pending, s.committing commit = some pending →
    FitsManifest json (combinedPredictions (manifestPredictions s.disk)
      (Keyed.values (effectiveTaskUpdates (manifestPredictions s.disk) pending.state)))

/-- A step in which no manifest reaches its bounds. -/
def BoundedTaskStep (json : Json) (task : String) (s t : TaskState ρ κ) : Prop :=
  ∃ event, TaskStep json task event s t ∧
    ∀ commit, event = .merge commit → s.MergeFits json commit

end Steps

/-- A valid manifest or none on disk, and no runs. -/
structure TaskState.Initial {ρ κ : Type} (json : Json) (task : String)
    (initial : Option TaskActionManifest) (s : TaskState ρ κ) : Prop where
  disk : s.disk = initial
  valid : ∀ manifest, initial = some manifest → validateTaskManifest json manifest task = .ok ()
  runs : ∀ run, s.runs run = none
  history : ∀ run, s.history run = .empty
  committing : ∀ commit, s.committing commit = none
  commits : s.commits = []

end MrBoxington.TaskManifest
