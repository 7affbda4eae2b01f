import MrBoxington.TaskManifest.Update

/-!
# What a task run records

A run starts from the manifest of its task. Recording a prediction changes the
run's own view, keeps it for the commit, and notes the value that the run started
from when it differs. A commit merges what the run recorded into the manifest that
is on disk by then: a value that the run changed replaces the one on disk, while a
value that it merely recorded again only moves the one on disk to the end.
-/

namespace MrBoxington.TaskManifest

open Protocol (Digest ActionPrediction TaskActionManifest Json maxTaskActionPredictions)
open Std (TreeMap)

/-- The version of task manifests. -/
def taskActionManifestVersion : ℕ := 1

/-- How close to its bound a manifest is refreshed by a run without changes. -/
def taskActionLruRefreshMargin : ℕ := maxTaskActionPredictions / 16

/-- A task run. -/
structure TaskActionState where
  manifest : String
  baselineLoaded : Bool
  predictions : TreeMap Digest ActionPrediction
  pendingPredictions : TreeMap Digest ActionPrediction
  /-- Those that differ from what the run started from, each with what that was. -/
  changedPredictions : TreeMap Digest (Option ActionPrediction)
  remotePublicationNeeded : Bool

/-- A run that did not start from anything. -/
def TaskActionState.default : TaskActionState := ⟨"", false, ∅, ∅, ∅, false⟩

/-- The predictions of a manifest, if there is one. -/
def manifestPredictions (manifest : Option TaskActionManifest) : List ActionPrediction :=
  manifest.elim [] TaskActionManifest.predictions

/-- A run that starts from the manifest on disk, without a remote cache. -/
def beginTask (task : String) (manifest : Option TaskActionManifest) : TaskActionState :=
  { TaskActionState.default with
    manifest := task
    baselineLoaded := true
    predictions := Keyed.index ActionPrediction.invocation (manifestPredictions manifest) }

/-- The run's changes after it recorded a prediction. -/
def TaskActionState.changes (state : TaskActionState) (prediction : ActionPrediction) :
    TreeMap Digest (Option ActionPrediction) :=
  let current := state.predictions[prediction.invocation]?
  if current = some prediction then state.changedPredictions
  else
    match state.changedPredictions[prediction.invocation]? with
    | some baseline =>
      -- Back to what the manifest held: no longer a change.
      if baseline = some prediction then state.changedPredictions.erase prediction.invocation
      else state.changedPredictions
    | none => state.changedPredictions.insert prediction.invocation current

/-- The run after it recorded a prediction. -/
def TaskActionState.record (state : TaskActionState) (prediction : ActionPrediction) :
    TaskActionState :=
  { state with
    changedPredictions := state.changes prediction
    predictions := state.predictions.insert prediction.invocation prediction
    pendingPredictions := state.pendingPredictions.insert prediction.invocation prediction }

/-- Record a prediction if it is valid and there is room. -/
def recordActionPrediction (json : Json) (state : TaskActionState)
    (prediction : ActionPrediction) : Except String TaskActionState :=
  match prediction.validate json with
  | .error message => .error message
  | .ok () =>
    if state.pendingPredictions.contains prediction.invocation = false ∧
        maxTaskActionPredictions ≤ state.pendingPredictions.size then
      .error tooManyPredictions
    else .ok (state.record prediction)

/-- What the run started from, for one invocation. -/
def TaskActionState.baseline (state : TaskActionState) (invocation : Digest) :
    Option ActionPrediction :=
  match state.changedPredictions[invocation]? with
  | some baseline => baseline
  | none => state.predictions[invocation]?

/-- The predictions on disk that were written after the run began. -/
def concurrentTaskPredictions (predictions : List ActionPrediction) (state : TaskActionState) :
    TreeMap Digest ActionPrediction :=
  Keyed.index ActionPrediction.invocation
    (predictions.filter fun prediction => state.baseline prediction.invocation ≠ some prediction)

/-- What the run contributes: its own value where it changed one, and otherwise the
value on disk. -/
def effectiveTaskUpdates (predictions : List ActionPrediction) (state : TaskActionState) :
    TreeMap Digest ActionPrediction :=
  let current := Keyed.index ActionPrediction.invocation predictions
  state.pendingPredictions.map fun invocation update =>
    if state.changedPredictions.contains invocation then update
    else current[invocation]?.getD update

/-- Guard concurrent changes, the newest first, as long as there is room. -/
def guardConcurrent (concurrentUpdates : TreeMap Digest ActionPrediction) :
    Finset Digest → List ActionPrediction → Finset Digest
  | required, [] => required
  | required, prediction :: rest =>
    if required.card = maxTaskActionPredictions then required
    else if concurrentUpdates.contains prediction.invocation then
      guardConcurrent concurrentUpdates (insert prediction.invocation required) rest
    else guardConcurrent concurrentUpdates required rest

/-- The invocations that a commit must keep. -/
def requiredLocalPredictions (predictions : List ActionPrediction)
    (updates concurrentUpdates : TreeMap Digest ActionPrediction) : Finset Digest :=
  guardConcurrent concurrentUpdates updates.keys.toFinset predictions.reverse

/-- A run near the bound refreshes the order of the manifest. -/
def shouldRefreshTaskPredictionOrder (predictionCount : ℕ) (hasRecorded : Bool) : Bool :=
  hasRecorded ∧ maxTaskActionPredictions - taskActionLruRefreshMargin ≤ predictionCount

/-- A run that leaves the manifest as it is. -/
def TaskActionState.hitOnly (state : TaskActionState) : Bool :=
  state.changedPredictions.isEmpty ∧
    shouldRefreshTaskPredictionOrder state.predictions.size
      (!state.pendingPredictions.isEmpty) = false ∧
    state.remotePublicationNeeded = false

/-- The check of a manifest for its task. -/
def validateTaskManifest (json : Json) (manifest : TaskActionManifest) (task : String) :
    Except String Unit :=
  if manifest.task = task ∧ manifest.validate json then .ok ()
  else .error "invalid task action manifest"

/-- What a commit makes of the manifest on disk. -/
def commitTaskActions (json : Json) (disk : Option TaskActionManifest) (state : TaskActionState) :
    Except String TaskActionManifest :=
  let predictions := manifestPredictions disk
  let concurrentUpdates := concurrentTaskPredictions predictions state
  let effectiveUpdates := effectiveTaskUpdates predictions state
  let required := requiredLocalPredictions predictions effectiveUpdates concurrentUpdates
  match updateTaskPredictions json predictions effectiveUpdates required with
  | .error message => .error message
  | .ok predictions =>
    let manifest := ⟨taskActionManifestVersion, state.manifest, predictions⟩
    match validateTaskManifest json manifest state.manifest with
    | .error message => .error message
    | .ok () => .ok manifest

section Sample

/-- A hash, and the identity of a task. -/
def sampleHash : String := "0123456789abcdef0123456789abcdef0123456789abcdef0123456789abcdef"

/-- Every text is JSON, and predictions are small. -/
def sampleJson : Json := ⟨fun _ => true, fun _ => 100, id⟩

/-- Predictions for one invocation. -/
def samplePrediction (payload : String) : ActionPrediction :=
  ⟨⟨"blake3", sampleHash, 1⟩, ⟨"blake3", sampleHash, 2⟩, "rustc", payload⟩

/-- A manifest of one prediction. -/
def sampleManifest (payload : String) : TaskActionManifest :=
  ⟨1, sampleHash, [samplePrediction payload]⟩

theorem isHash_sampleHash : Protocol.isHash sampleHash = true := by decide +kernel

theorem isBlake3_sampleHash (size : ℕ) :
    (⟨"blake3", sampleHash, size⟩ : Digest).isBlake3 = true := by
  rw [Digest.isBlake3, Digest.validate, isHash_sampleHash]
  rfl

private theorem validate_samplePrediction {payload : String}
    (hpayload : payload.utf8ByteSize ≤ Protocol.maxActionPredictionPayload) :
    (samplePrediction payload).validate sampleJson = .ok () := by
  have hdigest : ∀ size, ¬(⟨"blake3", sampleHash, size⟩ : Digest).isBlake3 = false := by
    simp [isBlake3_sampleHash]
  have hadapter : ¬Protocol.validAdapterName "rustc" = false := by decide
  have hviolation : (samplePrediction payload).constraintViolation sampleJson = none := by
    unfold ActionPrediction.constraintViolation
    rw [samplePrediction, if_neg (hdigest 2), if_neg (hdigest 1), if_neg (by simp),
      if_neg hadapter, if_neg (Nat.not_lt.mpr hpayload), if_neg (by simp [sampleJson])]
  rw [ActionPrediction.validate, hviolation]

theorem validate_sampleManifest {payload : String}
    (hpayload : payload.utf8ByteSize ≤ Protocol.maxActionPredictionPayload) :
    validateTaskManifest sampleJson (sampleManifest payload) sampleHash = .ok () := by
  have hlength : 1 ≤ maxTaskActionPredictions := by decide
  refine if_pos ⟨rfl, decide_eq_true ⟨rfl, isHash_sampleHash, hlength, ?_, List.nodup_singleton _⟩⟩
  simpa [sampleManifest] using validate_samplePrediction hpayload

theorem fitsManifest_samplePrediction (payload : String) :
    FitsManifest sampleJson [samplePrediction payload] := by
  constructor
  · exact (by decide : 1 ≤ maxTaskActionPredictions)
  · exact (by decide : 256 + (101 + 0) ≤ maxTaskManifestBytes)

end Sample

end MrBoxington.TaskManifest
