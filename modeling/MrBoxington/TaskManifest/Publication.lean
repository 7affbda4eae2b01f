import MrBoxington.TaskManifest.RemotePut
import MrBoxington.Uploads.Queue

/-!
# What a commit publishes remotely

After a commit has written the local manifest, it waits for the uploads of the actions
that the manifest predicts, withholds the predictions that nothing proves to be
published, merges the rest into the remote manifest that was read, and puts the result.
-/

namespace MrBoxington.TaskManifest

open Protocol (Digest ActionPrediction TaskActionManifest Json)
open Uploads (Ticket UploadOutcome)
open Std (TreeMap)

/-- How the remote cache may be used. -/
inductive RemoteCacheMode where
  | readWrite
  | readOnly
  | writeOnly
deriving DecidableEq

namespace RemoteCacheMode

/-- Whether remote reads are allowed. -/
def reads (mode : RemoteCacheMode) : Bool := mode = .readWrite ∨ mode = .readOnly

/-- Whether remote writes are allowed. -/
def writes (mode : RemoteCacheMode) : Bool := mode = .readWrite ∨ mode = .writeOnly

/-- Whether nothing but writes is allowed. -/
def writesOnly (mode : RemoteCacheMode) : Bool := mode.writes ∧ !mode.reads

end RemoteCacheMode

/-- Predictions that were observed remotely, by their invocations. -/
structure RemotePredictions where
  map : TreeMap Digest ActionPrediction
  faithful : Keyed.Faithful ActionPrediction.invocation map

namespace RemotePredictions

/-- The predictions of a remote manifest. -/
def ofManifest (manifest : TaskActionManifest) : RemotePredictions :=
  ⟨Keyed.index ActionPrediction.invocation manifest.predictions, Keyed.faithful_index⟩

/-- Nothing was observed. -/
def empty : RemotePredictions := ⟨∅, Keyed.faithful_empty⟩

end RemotePredictions

/-- A task run with what it knows about the remote manifest. -/
structure PublishingState extends TaskActionState where
  /-- The values that were observed remotely; none if their provenance is unknown. -/
  remotePredictions : Option RemotePredictions
  remoteManifest : Option TaskActionManifest
  remoteEtag : Option String

/-- The queue of uploads: the tickets of action results, and how each one ends. -/
structure ActionUploads where
  actionTickets : TreeMap Digest Ticket
  awaited : Ticket → UploadOutcome

/-- The result of reading a manifest remotely, with its version. -/
abbrev ManifestLookup := Except String (Option (TaskActionManifest × String))

section Proofs

/-- Wait for action results. The ones that the queue holds, and those of them that were
not published. -/
def waitForActionOutcomes (uploads : ActionUploads) (actions : List Digest) :
    Finset Digest × Finset Digest :=
  let tickets := actions.filterMap fun action =>
    uploads.actionTickets[action]?.map fun ticket => (action, ticket)
  let held := (tickets.map Prod.fst).toFinset
  let unpublished := ((tickets.filter fun entry =>
    !(uploads.awaited entry.2).published).map Prod.fst).toFinset
  (held, unpublished)

/-- The last remotely observed value of every prediction that the run replaces. -/
def replacedTaskPredictions (remote : RemotePredictions) (candidates : List Digest) :
    List ActionPrediction :=
  candidates.filterMap fun invocation => remote.map[invocation]?

/-- The values that the remote baseline does not prove, by invocation, each with its
action. -/
def unprovenTaskPredictions (predictions : List ActionPrediction) (remote : RemotePredictions) :
    TreeMap Digest Digest :=
  (Keyed.index ActionPrediction.invocation (predictions.filter fun prediction =>
    remote.map[prediction.invocation]? ≠ some prediction)).map
      fun _ prediction => prediction.action

/-- Actions without proof that the queue does not hold, and those that failed. -/
def unpublishedTaskActions (unproven held failed : Finset Digest) : Finset Digest :=
  (unproven.filter fun action => action ∉ held) ∪ failed

/-- What is withheld, and the predictions without it. The last value that was observed
remotely takes the place of a withheld one. -/
def withholdUnpublishedUpdates (predictions : List ActionPrediction) (candidates : Finset Digest)
    (replaced : List ActionPrediction) (unpublished : Finset Digest) :
    Finset Digest × List ActionPrediction :=
  let withheld := ((predictions.filter fun prediction =>
    prediction.invocation ∈ candidates ∧ prediction.action ∈ unpublished).map
      ActionPrediction.invocation).toFinset
  let kept := predictions.filter fun prediction => prediction.invocation ∉ withheld
  let retained := (kept.map ActionPrediction.invocation).toFinset
  let restored := Keyed.retainNew ActionPrediction.invocation retained
    (replaced.reverse.filter fun previous => previous.invocation ∈ withheld)
  (withheld, kept ++ restored)

/-- What may be withheld. -/
structure Withholding where
  candidates : Finset Digest
  replaced : List ActionPrediction
  unpublished : Finset Digest

/-- What may be withheld of a manifest, given the actions that the queue held and those
that failed. -/
def withholding (state : PublishingState) (predictions : List ActionPrediction)
    (held failed : Finset Digest) : Withholding :=
  match state.remotePredictions with
  | some remote =>
    let unproven := unprovenTaskPredictions predictions remote
    ⟨unproven.keys.toFinset, replacedTaskPredictions remote unproven.keys,
      unpublishedTaskActions (Keyed.values unproven).toFinset held failed⟩
  | none =>
    let candidates := (state.changedPredictions.keys.filter fun invocation =>
      predictions.any fun prediction => prediction.invocation = invocation).toFinset
    let unproven := ((predictions.filter fun prediction =>
      prediction.invocation ∈ candidates).map ActionPrediction.action).toFinset
    ⟨candidates, [], unpublishedTaskActions unproven held failed⟩

/-- Which local values outrank a remote manifest, and which ones only fill its gaps. -/
def remotePublicationPrecedence (state : PublishingState) (completed : List ActionPrediction)
    (concurrentUpdates : TreeMap Digest ActionPrediction) (provenUploads : Finset Digest)
    (published : TreeMap Digest ActionPrediction) (withheld : Finset Digest) :
    Finset Digest × Finset Digest :=
  let baseInvocations :=
    ((manifestPredictions state.remoteManifest).map ActionPrediction.invocation).toFinset
  let unchangedHits := ((completed.filter fun prediction =>
    !state.changedPredictions.contains prediction.invocation).map
      ActionPrediction.invocation).toFinset
  let required := (((completed.filter fun prediction => prediction.invocation ∉ unchangedHits) ++
    (Keyed.values concurrentUpdates).filter fun prediction =>
      state.remotePredictions.isSome ∨ prediction.action ∈ provenUploads).filter
        fun prediction => prediction.invocation ∉ withheld ∧
          published[prediction.invocation]? = some prediction).map ActionPrediction.invocation
  let fallbacks := (withheld.filter fun invocation => published.contains invocation) ∪
    (unchangedHits.filter fun invocation => published.contains invocation) ∪
    ((concurrentUpdates.toList.filter fun entry => state.remotePredictions.isNone ∧
      entry.2.action ∉ provenUploads ∧ published.contains entry.1).map Prod.fst).toFinset ∪
    (published.keys.filter fun invocation => state.remotePredictions.isNone ∧
      state.remoteManifest.isSome ∧ invocation ∉ baseInvocations).toFinset
  (required.toFinset, fallbacks)

end Proofs

/-- A write-only session reads the remote manifest before it publishes: as the version to
replace, and as what proves that its predictions are published. -/
def PublishingState.refresh (state : PublishingState) (lookup : ManifestLookup) :
    PublishingState × Option TaskActionManifest :=
  match lookup with
  | .ok (some (manifest, etag)) =>
    let remote := RemotePredictions.ofManifest manifest
    let hasMissingFallback := state.predictions.keys.any fun invocation =>
      !remote.map.contains invocation
    ({ state with
        remotePredictions := if hasMissingFallback then none else some remote
        remoteEtag := some etag
        remoteManifest := some manifest
        remotePublicationNeeded := hasMissingFallback }, some manifest)
  | .ok none =>
    ({ state with
        remotePredictions := if state.predictions.isEmpty then some .empty else none
        remotePublicationNeeded := !state.predictions.isEmpty }, none)
  | .error _ =>
    ({ state with remotePredictions := none, remotePublicationNeeded := false }, none)

/-- The state from which a session publishes, and what a write-only one has read. -/
def PublishingState.prepare (state : PublishingState) (mode : RemoteCacheMode)
    (lookup : ManifestLookup) : PublishingState × Option TaskActionManifest :=
  if mode.writesOnly then state.refresh lookup else (state, none)

/-- What surrounds a commit. -/
structure Surroundings where
  mode : RemoteCacheMode
  hasRemote : Bool
  lookup : ManifestLookup
  disk : Option TaskActionManifest
  uploads : Option ActionUploads
  replies : ℕ → PutReply
  reloaded : Except String (Option TaskActionManifest)

/-- What a commit does. -/
structure CommitEffects where
  merged : Option TaskActionManifest
  attempts : List Attempt
  reconciled : Option TaskActionManifest
  result : Except String (List ActionPrediction)

/-- The local manifest after one was stored remotely. -/
def reconcile (json : Json) (task : String) (reloaded : Except String (Option TaskActionManifest))
    (remote : TaskActionManifest) : Option TaskActionManifest :=
  match reloaded with
  | .error _ => none
  | .ok none => some remote
  | .ok (some localManifest) =>
    let required := (localManifest.predictions.map ActionPrediction.invocation).toFinset
    match mergeTaskManifests json task remote localManifest required ∅ with
    | .ok manifest => some manifest
    | .error _ => some localManifest

/-- The outcomes of the uploads of a manifest's actions. -/
def actionOutcomes (uploads : Option ActionUploads) (predictions : List ActionPrediction) :
    Finset Digest × Finset Digest :=
  uploads.elim (∅, ∅) fun uploads =>
    waitForActionOutcomes uploads (predictions.map ActionPrediction.action)

/-- The manifest that a commit puts first, with what outranks a remote manifest and what
fills its gaps. -/
def publication (json : Json) (env : Surroundings) (state : PublishingState)
    (writeOnlyRemote : Option TaskActionManifest) (manifest : TaskActionManifest)
    (concurrentUpdates : TreeMap Digest ActionPrediction) :
    Except String (TaskActionManifest × Finset Digest × Finset Digest) :=
  let outcomes := actionOutcomes env.uploads manifest.predictions
  let proofs := withholding state manifest.predictions outcomes.1 outcomes.2
  let withheld :=
    withholdUnpublishedUpdates manifest.predictions proofs.candidates proofs.replaced
      proofs.unpublished
  let precedence := remotePublicationPrecedence state (Keyed.values state.pendingPredictions)
    concurrentUpdates (outcomes.1 \ outcomes.2)
    (Keyed.index ActionPrediction.invocation withheld.2) withheld.1
  let manifest := { manifest with predictions := withheld.2 }
  match writeOnlyRemote.or state.remoteManifest with
  | none => .ok (manifest, precedence)
  | some remote =>
    match mergeTaskManifests json state.manifest remote manifest precedence.1 precedence.2 with
    | .error message => .error message
    | .ok merged => .ok (merged, precedence)

/-- Publish the merged manifest. -/
def publish (json : Json) (env : Surroundings) (state : PublishingState)
    (writeOnlyRemote : Option TaskActionManifest) (manifest : TaskActionManifest) :
    CommitEffects :=
  let concurrentUpdates :=
    concurrentTaskPredictions (manifestPredictions env.disk) state.toTaskActionState
  match publication json env state writeOnlyRemote manifest concurrentUpdates with
  | .error message => ⟨some manifest, [], none, .error message⟩
  | .ok (first, required, fallbacks) =>
    let put := putRemoteTaskManifest json state.manifest required fallbacks env.hasRemote
      env.replies first state.remoteEtag
    let reconciled := put.2.toOption.bind (reconcile json state.manifest env.reloaded)
    ⟨some manifest, put.1, reconciled, .ok (Keyed.values state.pendingPredictions)⟩

/-- The commit of a run in a session with a remote cache. -/
def commitRemotely (json : Json) (env : Surroundings) (state : PublishingState) :
    CommitEffects :=
  let completed := Keyed.values state.pendingPredictions
  let prepared := state.prepare env.mode env.lookup
  if state.baselineLoaded = false then
    ⟨none, [], none, .error "task action manifest baseline was not loaded"⟩
  else if state.hitOnly then ⟨none, [], none, .ok completed⟩
  else if Protocol.validTaskIdentity state.manifest = false then
    ⟨none, [], none, .error "invalid task action identity"⟩
  else if env.mode.writesOnly ∧ prepared.1.hitOnly then ⟨none, [], none, .ok completed⟩
  else
    match commitTaskActions json env.disk prepared.1.toTaskActionState with
    | .error message => ⟨none, [], none, .error message⟩
    | .ok manifest =>
      if env.mode.writes then publish json env prepared.1 prepared.2 manifest
      else ⟨some manifest, [], none, .ok completed⟩

end MrBoxington.TaskManifest
