import MrBoxington.TaskManifest.Merge

/-!
# Publishing a manifest remotely

A manifest is put on the condition that the remote one did not change since it was read.
After a conflict the remote manifest is read again, and what was put is merged into it.
So each attempt puts what the attempts before made of the original manifest.
-/

namespace MrBoxington.TaskManifest

open Protocol (Digest ActionPrediction TaskActionManifest Json)

/-- The answer to a conditional put, with what is read after a conflict. -/
inductive PutReply where
  | stored
  /-- The remote manifest has changed; it is read again, and may be gone. -/
  | preconditionFailed (reread : Except String (Option (TaskActionManifest × String)))
  | failed (message : String)

/-- A conditional put. -/
structure Attempt where
  manifest : TaskActionManifest
  expectedEtag : Option String
  reread : Option TaskActionManifest
deriving DecidableEq

section Put

variable (json : Json) (task : String) (required fallbacks : Finset Digest)

/-- The attempts to put a manifest, and how they end. -/
def putAttempts : ℕ → (ℕ → PutReply) → TaskActionManifest → Option String →
    List Attempt × Except String TaskActionManifest
  | 0, _, _, _ => ([], .error "remote task action manifest changed too frequently")
  | attempts + 1, replies, manifest, expectedEtag =>
    match replies 0 with
    | .stored => ([⟨manifest, expectedEtag, none⟩], .ok manifest)
    | .failed message => ([⟨manifest, expectedEtag, none⟩], .error message)
    | .preconditionFailed (.error message) =>
      ([⟨manifest, expectedEtag, none⟩], .error message)
    | .preconditionFailed (.ok none) =>
      let later := putAttempts attempts (fun k => replies (k + 1)) manifest none
      (⟨manifest, expectedEtag, none⟩ :: later.1, later.2)
    | .preconditionFailed (.ok (some (remote, etag))) =>
      match mergeTaskManifests json task remote manifest required fallbacks with
      | .error message => ([⟨manifest, expectedEtag, some remote⟩], .error message)
      | .ok merged =>
        let later := putAttempts attempts (fun k => replies (k + 1)) merged (some etag)
        (⟨manifest, expectedEtag, some remote⟩ :: later.1, later.2)

/-- Put a manifest, at most four times. -/
def putRemoteTaskManifest (hasRemote : Bool) (replies : ℕ → PutReply)
    (manifest : TaskActionManifest) (expectedEtag : Option String) :
    List Attempt × Except String TaskActionManifest :=
  if hasRemote then putAttempts json task required fallbacks 4 replies manifest expectedEtag
  else ([], .ok manifest)

end Put

/-- The last remote manifest that was read, with the manifest that was merged into it. -/
def lastRead : List Attempt → Option (TaskActionManifest × TaskActionManifest)
  | [] => none
  | attempt :: later =>
    (lastRead later).or (attempt.reread.map fun remote => (remote, attempt.manifest))

/-- The value of an invocation in the first manifest that has one. -/
def firstValue (manifests : List TaskActionManifest) (invocation : Digest) :
    Option ActionPrediction :=
  manifests.findSome? fun manifest =>
    Keyed.lookup ActionPrediction.invocation manifest.predictions invocation

/-- A manifest carries what a remote manifest has for the invocations that are not
required, except for what the bounds retired when an update was merged into it. -/
def Inherits (json : Json) (required fallbacks : Finset Digest)
    (remote update stored : TaskActionManifest) : Prop :=
  ∀ prediction ∈ remote.predictions, prediction.invocation ∉ required →
    prediction ∈ stored.predictions ∨
      prediction.invocation ∉ stored.predictions.map ActionPrediction.invocation ∧
        ¬FitsManifest json
          (mergedPredictions remote.predictions update.predictions required fallbacks)

variable {json : Json} {task : String} {required fallbacks : Finset Digest}

private theorem putAttempts_conflict {attempts : ℕ} {replies : ℕ → PutReply}
    {manifest remote merged : TaskActionManifest} {expectedEtag : Option String} {etag : String}
    (hreply : replies 0 = .preconditionFailed (.ok (some (remote, etag))))
    (hmerged : mergeTaskManifests json task remote manifest required fallbacks = .ok merged) :
    putAttempts json task required fallbacks (attempts + 1) replies manifest expectedEtag =
      (⟨manifest, expectedEtag, some remote⟩ ::
        (putAttempts json task required fallbacks attempts (fun k => replies (k + 1)) merged
          (some etag)).1,
        (putAttempts json task required fallbacks attempts (fun k => replies (k + 1)) merged
          (some etag)).2) := by
  rw [putAttempts, hreply]
  dsimp only
  rw [hmerged]

private theorem firstValue_merged {remote update merged : TaskActionManifest}
    {later : List TaskActionManifest} {invocation : Digest} (hrequired : invocation ∈ required)
    (hmerged : mergeTaskManifests json task remote update required fallbacks = .ok merged) :
    firstValue (merged :: later) invocation =
      firstValue (update :: remote :: later) invocation := by
  unfold firstValue
  rw [List.findSome?_cons, List.findSome?_cons, List.findSome?_cons,
    lookup_merged_required hmerged hrequired]
  cases Keyed.lookup ActionPrediction.invocation update.predictions invocation with
  | none => rfl
  | some prediction => rfl

/-- Every attempt carries the required predictions on, and what is stored inherits the
rest from the last remote manifest. -/
private theorem putAttempts_stored {attempts : ℕ} {replies : ℕ → PutReply}
    {manifest stored : TaskActionManifest} {expectedEtag : Option String}
    {tried : List Attempt} (hvalid : validateTaskManifest json manifest task = .ok ())
    (hput : putAttempts json task required fallbacks attempts replies manifest expectedEtag =
      (tried, .ok stored)) :
    validateTaskManifest json stored task = .ok () ∧
      (∀ invocation ∈ required,
        Keyed.lookup ActionPrediction.invocation stored.predictions invocation =
          firstValue (manifest :: tried.filterMap Attempt.reread) invocation) ∧
      (lastRead tried = none → stored = manifest) ∧
      ∀ remote update, lastRead tried = some (remote, update) →
        Inherits json required fallbacks remote update stored := by
  induction attempts generalizing replies manifest expectedEtag tried with
  | zero => cases hput
  | succ attempts ih =>
    unfold putAttempts at hput
    split at hput
    · cases hput
      refine ⟨hvalid, fun invocation _ => ?_, fun _ => rfl, fun _ _ hread => by cases hread⟩
      simp [firstValue]
    · cases hput
    · cases hput
    · obtain ⟨rfl, hlater⟩ := Prod.mk.inj hput
      obtain ⟨hstored, hrequired, hnone, hinherits⟩ := ih hvalid (Prod.ext rfl hlater)
      refine ⟨hstored, hrequired, fun hread => hnone ?_, fun remote update hread =>
        hinherits remote update ?_⟩
      · simpa [lastRead] using hread
      · simpa [lastRead] using hread
    · rename_i remote etag _
      split at hput
      · cases hput
      · rename_i merged hmerged
        obtain ⟨rfl, hlater⟩ := Prod.mk.inj hput
        obtain ⟨-, -, hmergedValid, -⟩ := mergeTaskManifests_ok hmerged
        obtain ⟨hstored, hrequired, hnone, hinherits⟩ := ih hmergedValid (Prod.ext rfl hlater)
        refine ⟨hstored, fun invocation hneeded => ?_, fun hread => ?_,
          fun base update hread => ?_⟩
        · rw [hrequired invocation hneeded, firstValue_merged hneeded hmerged]
          rfl
        · simp [lastRead] at hread
        · -- Either a later attempt has read again, or what was merged here is stored.
          rw [lastRead] at hread
          cases hlast : lastRead (putAttempts json task required fallbacks attempts
              (fun k => replies (k + 1)) merged (some etag)).1 with
          | some read =>
            rw [hlast] at hread
            cases hread
            exact hinherits base update hlast
          | none =>
            rw [hlast] at hread
            cases hread
            rw [hnone hlast]
            exact fun prediction hmem hother => mem_merged_base hmerged hmem hother

/-- What is stored is valid. For a required invocation it has the value of the original
manifest, or else of the first remote manifest that was read and has one. For the others
it inherits from the last remote manifest that was read. -/
theorem putRemoteTaskManifest_stored {hasRemote : Bool} {replies : ℕ → PutReply}
    {manifest stored : TaskActionManifest} {expectedEtag : Option String}
    {tried : List Attempt} (hvalid : validateTaskManifest json manifest task = .ok ())
    (hput : putRemoteTaskManifest json task required fallbacks hasRemote replies manifest
      expectedEtag = (tried, .ok stored)) :
    validateTaskManifest json stored task = .ok () ∧
      (∀ invocation ∈ required,
        Keyed.lookup ActionPrediction.invocation stored.predictions invocation =
          firstValue (manifest :: tried.filterMap Attempt.reread) invocation) ∧
      ∀ remote update, lastRead tried = some (remote, update) →
        Inherits json required fallbacks remote update stored := by
  unfold putRemoteTaskManifest at hput
  split at hput
  · obtain ⟨hstored, hrequired, -, hinherits⟩ := putAttempts_stored hvalid hput
    exact ⟨hstored, hrequired, hinherits⟩
  · cases hput
    refine ⟨hvalid, fun invocation _ => ?_, fun _ _ hread => by cases hread⟩
    simp [firstValue]

section Sample

/-- A manifest without predictions. -/
def emptyManifest : TaskActionManifest := ⟨1, sampleHash, []⟩

/-- Two conflicts, with another value of one invocation each time. -/
def twoConflicts : ℕ → PutReply
  | 0 => .preconditionFailed (.ok (some (sampleManifest "1", "first")))
  | 1 => .preconditionFailed (.ok (some (sampleManifest "2", "second")))
  | _ => .stored

/-- The invocation of the conflicts is required. -/
def sampleRequired : Finset Digest := {(samplePrediction "").invocation}

/-- The attempts in this run. -/
def twoConflictsTried : List Attempt :=
  [⟨emptyManifest, none, some (sampleManifest "1")⟩,
    ⟨sampleManifest "1", some "first", some (sampleManifest "2")⟩,
    ⟨sampleManifest "1", some "second", none⟩]

private theorem validate_emptyManifest :
    validateTaskManifest sampleJson emptyManifest sampleHash = .ok () := by decide +kernel

private theorem mergedPredictions_empty (payload : String) :
    mergedPredictions [samplePrediction payload] [] sampleRequired ∅ =
      [samplePrediction payload] := by
  simp [mergedPredictions, mergeHistory, mergeUpdates, combinedPredictions, Keyed.merge,
    Keyed.latest, Keyed.retainNew]

private theorem mergedPredictions_sample (payload payload' : String) :
    mergedPredictions [samplePrediction payload'] [samplePrediction payload] sampleRequired ∅ =
      [samplePrediction payload] := by
  have hrequired : (samplePrediction payload).invocation ∈ sampleRequired :=
    Finset.mem_singleton.mpr rfl
  have hnamed : (samplePrediction payload).invocation ∈
      [samplePrediction payload'].map ActionPrediction.invocation := List.mem_singleton.mpr rfl
  have hcontains := contains_index.2 hnamed
  have hsame : (samplePrediction payload').invocation = (samplePrediction payload).invocation := rfl
  simp [mergedPredictions, mergeHistory, mergeUpdates, combinedPredictions, Keyed.merge,
    Keyed.latest, Keyed.retainNew, hrequired, hcontains, hsame]

private theorem card_sampleRequired (updates : List ActionPrediction)
    (hupdates : updates ⊆ [samplePrediction "1"]) :
    (sampleRequired ∪ (updates.map ActionPrediction.invocation).toFinset).card ≤
      Protocol.maxTaskActionPredictions := by
  have hsubset : sampleRequired ∪ (updates.map ActionPrediction.invocation).toFinset ⊆
      sampleRequired := by
    refine Finset.union_subset (Finset.Subset.refl _) fun invocation hmem => ?_
    obtain ⟨prediction, hprediction, rfl⟩ := List.mem_map.mp (List.mem_toFinset.mp hmem)
    rw [List.mem_singleton.mp (hupdates hprediction)]
    exact Finset.mem_singleton.mpr rfl
  have hone : 1 ≤ Protocol.maxTaskActionPredictions := by decide
  exact (Finset.card_le_card hsubset).trans hone

private theorem put_twoConflicts :
    putRemoteTaskManifest sampleJson sampleHash sampleRequired ∅ true twoConflicts
      emptyManifest none = (twoConflictsTried, .ok (sampleManifest "1")) := by
  have hone := @validate_sampleManifest "1" (by decide)
  have htwo := @validate_sampleManifest "2" (by decide)
  have hfits := fitsManifest_samplePrediction "1"
  have hfirst : mergeTaskManifests sampleJson sampleHash (sampleManifest "1") emptyManifest
      sampleRequired ∅ = .ok (sampleManifest "1") :=
    mergeTaskManifests_of_fits hone validate_emptyManifest (mergedPredictions_empty "1")
      (card_sampleRequired _ (by simp [mergeUpdates, emptyManifest])) hfits hone
  have hsecond : mergeTaskManifests sampleJson sampleHash (sampleManifest "2")
      (sampleManifest "1") sampleRequired ∅ = .ok (sampleManifest "1") :=
    mergeTaskManifests_of_fits htwo hone (mergedPredictions_sample "1" "2")
      (card_sampleRequired _ (List.filter_subset_self _)) hfits hone
  rw [putRemoteTaskManifest, if_pos rfl, putAttempts_conflict rfl hfirst,
    putAttempts_conflict rfl hsecond]
  rfl

theorem putRemoteTaskManifest_stored_twoConflicts :
    validateTaskManifest sampleJson (sampleManifest "1") sampleHash = .ok () ∧
      (∀ invocation ∈ sampleRequired,
        Keyed.lookup ActionPrediction.invocation (sampleManifest "1").predictions invocation =
          firstValue (emptyManifest :: twoConflictsTried.filterMap Attempt.reread) invocation) ∧
      ∀ remote update, lastRead twoConflictsTried = some (remote, update) →
        Inherits sampleJson sampleRequired ∅ remote update (sampleManifest "1") :=
  putRemoteTaskManifest_stored validate_emptyManifest put_twoConflicts

/-- A required invocation that the original manifest lacks gets its value from the first
conflict and keeps it against the second, although nothing is retired. -/
theorem putRemoteTaskManifest_keeps_first_conflict :
    validateTaskManifest sampleJson emptyManifest sampleHash = .ok () ∧
      putRemoteTaskManifest sampleJson sampleHash sampleRequired ∅ true twoConflicts
        emptyManifest none = (twoConflictsTried, .ok (sampleManifest "1")) ∧
      lastRead twoConflictsTried = some (sampleManifest "2", sampleManifest "1") ∧
      (samplePrediction "2").invocation ∉
        emptyManifest.predictions.map ActionPrediction.invocation ∧
      samplePrediction "2" ∈ (sampleManifest "2").predictions ∧
      samplePrediction "2" ∉ (sampleManifest "1").predictions ∧
      FitsManifest sampleJson (mergedPredictions (sampleManifest "2").predictions
        (sampleManifest "1").predictions sampleRequired ∅) := by
  have hdiffer : samplePrediction "2" ≠ samplePrediction "1" := fun heq =>
    absurd (congrArg ActionPrediction.payload heq) (by decide)
  refine ⟨validate_emptyManifest, put_twoConflicts, rfl, List.not_mem_nil, List.mem_cons_self,
    fun hmem => hdiffer (List.mem_singleton.mp hmem), ?_⟩
  exact (mergedPredictions_sample "1" "2").symm ▸ fitsManifest_samplePrediction "1"

end Sample

end MrBoxington.TaskManifest
