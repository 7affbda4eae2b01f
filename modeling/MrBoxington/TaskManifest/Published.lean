import MrBoxington.TaskManifest.Publication

/-!
# Only proven predictions are published

A prediction is proven to be published by the baseline of its run, by a remote manifest
that was read, or by an upload that succeeded. Withholding leaves only such predictions
when the baseline is known, and merging into remote manifests keeps it so.
-/

namespace MrBoxington.TaskManifest

open Protocol (Digest ActionPrediction TaskActionManifest Json)
open Uploads (Ticket UploadOutcome)

/-- Why a prediction may be published. -/
inductive Proven (uploads : Option ActionUploads) (baseline : RemotePredictions)
    (remotes : List TaskActionManifest) (prediction : ActionPrediction) : Prop
  | baseline (hvalue : baseline.map[prediction.invocation]? = some prediction)
  | remote (manifest : TaskActionManifest) (hread : manifest ∈ remotes)
      (hmem : prediction ∈ manifest.predictions)
  | uploaded (queue : ActionUploads) (ticket : Ticket) (hqueue : uploads = some queue)
      (hheld : queue.actionTickets[prediction.action]? = some ticket)
      (houtcome : queue.awaited ticket = .uploaded)

/-- The manifests of the task that were read remotely: when the run began, by a write-only
session before it published, and after the conflicts so far. -/
def readManifests (env : Surroundings) (state : PublishingState) (earlier : List Attempt) :
    List TaskActionManifest :=
  state.remoteManifest.toList ++ (state.prepare env.mode env.lookup).2.toList ++
    earlier.filterMap Attempt.reread

variable {json : Json} {task : String} {env : Surroundings} {state : PublishingState}
  {baseline : RemotePredictions} {prediction : ActionPrediction}

private theorem Proven.mono {uploads : Option ActionUploads}
    {remotes more : List TaskActionManifest}
    (hproven : Proven uploads baseline remotes prediction) (hmore : remotes ⊆ more) :
    Proven uploads baseline more prediction := by
  cases hproven with
  | baseline hvalue => exact .baseline hvalue
  | remote manifest hread hmem => exact .remote manifest (hmore hread) hmem
  | uploaded queue ticket hqueue hheld houtcome =>
    exact .uploaded queue ticket hqueue hheld houtcome

section Withholding

private theorem uploaded_of_held {uploads : ActionUploads} {actions : List Digest} {action : Digest}
    (hheld : action ∈ (waitForActionOutcomes uploads actions).1)
    (hpublished : action ∉ (waitForActionOutcomes uploads actions).2) :
    ∃ ticket, uploads.actionTickets[action]? = some ticket ∧
      uploads.awaited ticket = .uploaded := by
  obtain ⟨⟨held, ticket⟩, hentry, rfl⟩ := List.mem_map.mp (List.mem_toFinset.mp hheld)
  obtain ⟨found, -, hfound⟩ := List.mem_filterMap.mp hentry
  obtain ⟨ticket', hticket, heq⟩ := Option.map_eq_some_iff.mp hfound
  obtain ⟨rfl, rfl⟩ := Prod.mk.inj heq
  refine ⟨_, hticket, by_contra fun hother => hpublished ?_⟩
  rw [waitForActionOutcomes, List.mem_toFinset]
  exact List.mem_map.mpr ⟨_, List.mem_filter.mpr ⟨hentry, by
    simpa [UploadOutcome.published] using hother⟩, rfl⟩

private theorem mem_unprovenTaskPredictions {predictions : List ActionPrediction}
    (hnodup : (predictions.map ActionPrediction.invocation).Nodup) (hmem : prediction ∈ predictions)
    (hother : baseline.map[prediction.invocation]? ≠ some prediction) :
    (unprovenTaskPredictions predictions baseline)[prediction.invocation]? =
      some prediction.action := by
  have hfiltered : prediction ∈ predictions.filter fun prediction =>
      baseline.map[prediction.invocation]? ≠ some prediction :=
    List.mem_filter.mpr ⟨hmem, by simpa using hother⟩
  have hnodup : ((predictions.filter fun prediction =>
      baseline.map[prediction.invocation]? ≠ some prediction).map
        ActionPrediction.invocation).Nodup := hnodup.sublist (List.filter_sublist.map _)
  rw [unprovenTaskPredictions, Std.TreeMap.getElem?_map,
    Keyed.getElem?_index_of_nodup hnodup, Keyed.lookup_of_mem hnodup hfiltered]
  rfl

/-- What withholding leaves was there before and need not be withheld, or it takes the
place of something. -/
theorem mem_withholdUnpublishedUpdates {predictions replaced : List ActionPrediction}
    {candidates unpublished : Finset Digest}
    (hmem : prediction ∈
      (withholdUnpublishedUpdates predictions candidates replaced unpublished).2) :
    (prediction ∈ predictions ∧
      (prediction.invocation ∈ candidates → prediction.action ∉ unpublished)) ∨
      prediction ∈ replaced := by
  rcases List.mem_append.mp hmem with hkept | hrestored
  · obtain ⟨hold, hkept⟩ := List.mem_filter.mp hkept
    refine .inl ⟨hold, fun hcandidate hunpublished => of_decide_eq_true hkept ?_⟩
    exact List.mem_toFinset.mpr (List.mem_map.mpr ⟨prediction,
      List.mem_filter.mpr ⟨hold, decide_eq_true ⟨hcandidate, hunpublished⟩⟩, rfl⟩)
  · have hreplaced := Keyed.mem_of_mem_retainNew hrestored
    exact .inr (List.mem_reverse.mp (List.mem_of_mem_filter hreplaced))

private theorem mem_replacedTaskPredictions {candidates : List Digest}
    (hmem : prediction ∈ replacedTaskPredictions baseline candidates) :
    baseline.map[prediction.invocation]? = some prediction := by
  obtain ⟨invocation, -, hfound⟩ := List.mem_filterMap.mp hmem
  rwa [baseline.faithful invocation prediction hfound]

private theorem proven_of_withheld {uploads : Option ActionUploads}
    {predictions : List ActionPrediction}
    (hbaseline : state.remotePredictions = some baseline)
    (hnodup : (predictions.map ActionPrediction.invocation).Nodup)
    {outcomes : Finset Digest × Finset Digest} (houtcomes : outcomes =
      actionOutcomes uploads predictions)
    {proofs : Withholding} (hproofs : proofs =
      withholding state predictions outcomes.1 outcomes.2)
    (hmem : prediction ∈ (withholdUnpublishedUpdates predictions proofs.candidates
      proofs.replaced proofs.unpublished).2) :
    Proven uploads baseline [] prediction := by
  rw [withholding, hbaseline] at hproofs
  subst hproofs
  rcases mem_withholdUnpublishedUpdates hmem with ⟨hold, hspared⟩ | hreplaced
  · by_cases hsame : baseline.map[prediction.invocation]? = some prediction
    · exact .baseline hsame
    -- It could have been withheld, so its action is held and did not fail.
    have hunproven := mem_unprovenTaskPredictions hnodup hold hsame
    have hcandidate : prediction.invocation ∈
        (unprovenTaskPredictions predictions baseline).keys.toFinset :=
      List.mem_toFinset.mpr (Std.TreeMap.mem_keys.mpr
        (Std.TreeMap.mem_iff_isSome_getElem?.mpr (by rw [hunproven]; rfl)))
    have haction : prediction.action ∈
        (Keyed.values (unprovenTaskPredictions predictions baseline)).toFinset :=
      List.mem_toFinset.mpr (Keyed.mem_values.mpr ⟨_, hunproven⟩)
    have hpublished := hspared hcandidate
    simp only [unpublishedTaskActions, Finset.mem_union, Finset.mem_filter, not_or] at hpublished
    have hheld := not_not.mp fun hother => hpublished.1 ⟨haction, hother⟩
    subst houtcomes
    cases uploads with
    | none => exact absurd hheld (Finset.notMem_empty _)
    | some queue =>
      obtain ⟨ticket, hticket, houtcome⟩ := uploaded_of_held hheld hpublished.2
      exact .uploaded queue ticket rfl hticket houtcome
  · exact .baseline (mem_replacedTaskPredictions hreplaced)

end Withholding

private theorem publication_proven {manifest first : TaskActionManifest}
    {writeOnlyRemote : Option TaskActionManifest}
    {concurrentUpdates : Std.TreeMap Digest ActionPrediction}
    {precedence : Finset Digest × Finset Digest}
    (hbaseline : state.remotePredictions = some baseline)
    (hvalid : validateTaskManifest json manifest task = .ok ())
    (hfirst : publication json env state writeOnlyRemote manifest concurrentUpdates =
      .ok (first, precedence)) (hmem : prediction ∈ first.predictions) :
    Proven env.uploads baseline (writeOnlyRemote.or state.remoteManifest).toList prediction := by
  have hnodup := nodup_of_validateTaskManifest hvalid
  unfold publication at hfirst
  dsimp only at hfirst
  split at hfirst
  · cases hfirst
    exact (proven_of_withheld hbaseline hnodup rfl rfl hmem).mono (List.nil_subset _)
  · rename_i remote hremote
    split at hfirst
    · cases hfirst
    · rename_i merged hmerged
      cases hfirst
      rcases mem_of_mem_merged hmerged hmem with hbase | hupdate
      · exact .remote remote (by simp [hremote]) hbase
      · exact (proven_of_withheld hbaseline hnodup rfl rfl hupdate).mono (List.nil_subset _)

/-- An attempt puts nothing but what was put first and what was read after the conflicts
before it. -/
theorem mem_attempt {required fallbacks : Finset Digest} {attempts : ℕ} {replies : ℕ → PutReply}
    {manifest : TaskActionManifest} {expectedEtag : Option String} {earlier later : List Attempt}
    {attempt : Attempt}
    (hput : (putAttempts json task required fallbacks attempts replies manifest expectedEtag).1 =
      earlier ++ attempt :: later) (hmem : prediction ∈ attempt.manifest.predictions) :
    prediction ∈ manifest.predictions ∨
      ∃ remote ∈ earlier.filterMap Attempt.reread, prediction ∈ remote.predictions := by
  induction attempts generalizing replies manifest expectedEtag earlier with
  | zero => simp [putAttempts] at hput
  | succ attempts ih =>
    cases earlier with
    | nil =>
      -- The first attempt puts the manifest itself.
      refine .inl ?_
      have hhead : attempt.manifest = manifest := by
        unfold putAttempts at hput
        repeat' split at hput
        all_goals cases hput; rfl
      rwa [hhead] at hmem
    | cons attempt' earlier =>
      unfold putAttempts at hput
      split at hput
      · simp at hput
      · simp at hput
      · simp at hput
      · obtain ⟨rfl, hlater⟩ := List.cons.inj hput
        simpa using ih hlater
      · split at hput
        · simp at hput
        · rename_i remote _ _ _ merged hmerged
          obtain ⟨rfl, hlater⟩ := List.cons.inj hput
          rcases ih hlater with hput | ⟨read, hread, hmem⟩
          · rcases mem_of_mem_merged hmerged hput with hbase | hupdate
            · exact .inr ⟨remote, by simp, hbase⟩
            · exact .inl hupdate
          · exact .inr ⟨read, by simp [hread], hmem⟩

private theorem mem_readManifests {manifest : TaskActionManifest} {earlier : List Attempt}
    (hbase : manifest ∈ ((state.prepare env.mode env.lookup).2.or
      (state.prepare env.mode env.lookup).1.remoteManifest).toList) :
    manifest ∈ readManifests env state earlier := by
  unfold readManifests
  unfold PublishingState.prepare at hbase ⊢
  split at hbase
  · unfold PublishingState.refresh at hbase ⊢
    split at hbase <;> simp_all
  · simp_all

private theorem validateTaskManifest_of_commitTaskActions {disk : Option TaskActionManifest}
    {run : TaskActionState} {manifest : TaskActionManifest}
    (hok : commitTaskActions json disk run = .ok manifest) :
    validateTaskManifest json manifest run.manifest = .ok () := by
  unfold commitTaskActions at hok
  dsimp only at hok
  split at hok
  · cases hok
  split at hok
  · cases hok
  · rename_i hvalid
    cases hok
    exact hvalid

private theorem commitRemotely_attempts
    (hattempts : (commitRemotely json env state).attempts ≠ []) :
    ∃ manifest, commitTaskActions json env.disk
        (state.prepare env.mode env.lookup).1.toTaskActionState = .ok manifest ∧
      commitRemotely json env state = publish json env (state.prepare env.mode env.lookup).1
        (state.prepare env.mode env.lookup).2 manifest := by
  unfold commitRemotely at hattempts ⊢
  dsimp only at hattempts ⊢
  split at hattempts
  · exact absurd rfl hattempts
  split at hattempts
  · exact absurd rfl hattempts
  split at hattempts
  · exact absurd rfl hattempts
  split at hattempts
  · exact absurd rfl hattempts
  split at hattempts
  · exact absurd rfl hattempts
  split at hattempts
  · rename_i manifest hmanifest hwrites
    exact ⟨manifest, hmanifest, by simp [*]⟩
  · exact absurd rfl hattempts

private theorem publish_attempts {writeOnlyRemote : Option TaskActionManifest}
    {manifest : TaskActionManifest}
    (hattempts : (publish json env state writeOnlyRemote manifest).attempts ≠ []) :
    ∃ first precedence, publication json env state writeOnlyRemote manifest
        (concurrentTaskPredictions (manifestPredictions env.disk) state.toTaskActionState) =
          .ok (first, precedence) ∧
      (publish json env state writeOnlyRemote manifest).attempts =
        (putAttempts json state.manifest precedence.1 precedence.2 4 env.replies first
          state.remoteEtag).1 := by
  unfold publish at hattempts ⊢
  dsimp only at hattempts ⊢
  split at hattempts
  · exact absurd rfl hattempts
  · rename_i first required fallbacks hfirst
    refine ⟨first, (required, fallbacks), hfirst, ?_⟩
    unfold putRemoteTaskManifest at hattempts ⊢
    split at hattempts
    · simp [*]
    · exact absurd rfl hattempts

/-- When the baseline is known, every put of a commit, the first one and those after
conflicts, has only predictions that are values of the baseline, that occur in a
manifest of the task that was read remotely before the put, or whose action the queue held
and uploaded. -/
theorem commitRemotely_proven
    (hbaseline : (state.prepare env.mode env.lookup).1.remotePredictions = some baseline)
    {earlier later : List Attempt} {attempt : Attempt}
    (hattempt : (commitRemotely json env state).attempts = earlier ++ attempt :: later)
    (hmem : prediction ∈ attempt.manifest.predictions) :
    Proven env.uploads baseline (readManifests env state earlier) prediction := by
  have hput : (commitRemotely json env state).attempts ≠ [] := by simp [hattempt]
  obtain ⟨manifest, hmanifest, hpublish⟩ := commitRemotely_attempts hput
  rw [hpublish] at hput hattempt
  obtain ⟨first, precedence, hfirst, hattempts⟩ := publish_attempts hput
  rw [hattempts] at hattempt
  have hvalid := validateTaskManifest_of_commitTaskActions hmanifest
  rcases mem_attempt hattempt hmem with hput | ⟨remote, hread, hmem⟩
  · exact (publication_proven hbaseline hvalid hfirst hput).mono fun _ => mem_readManifests
  · exact .remote remote (List.mem_append_right _ hread) hmem

section Sample

/-- A run that recorded one prediction for a task that has no remote manifest. -/
def samplePublishing : PublishingState where
  manifest := sampleHash
  baselineLoaded := true
  predictions := .ofList [((samplePrediction "1").invocation, samplePrediction "1")]
  pendingPredictions := .ofList [((samplePrediction "1").invocation, samplePrediction "1")]
  changedPredictions := .ofList [((samplePrediction "1").invocation, none)]
  remotePublicationNeeded := false
  remotePredictions := some .empty
  remoteManifest := none
  remoteEtag := none

/-- The action of the prediction is uploaded, and the put succeeds. -/
def sampleSurroundings : Surroundings where
  mode := .readWrite
  hasRemote := true
  lookup := .ok none
  disk := none
  uploads := some ⟨.ofList [((samplePrediction "1").action, 0)], fun _ => .uploaded⟩
  replies _ := .stored
  reloaded := .ok none

private theorem attempts_samplePublishing :
    (commitRemotely sampleJson sampleSurroundings samplePublishing).attempts =
      [⟨sampleManifest "1", none, none⟩] := by
  decide +kernel

theorem commitRemotely_proven_uploaded :
    (commitRemotely sampleJson sampleSurroundings samplePublishing).attempts =
        [⟨sampleManifest "1", none, none⟩] ∧
      Proven sampleSurroundings.uploads .empty
        (readManifests sampleSurroundings samplePublishing []) (samplePrediction "1") :=
  ⟨attempts_samplePublishing,
    commitRemotely_proven rfl attempts_samplePublishing List.mem_cons_self⟩

end Sample

end MrBoxington.TaskManifest
