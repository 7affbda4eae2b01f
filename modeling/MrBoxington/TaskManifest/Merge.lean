import MrBoxington.TaskManifest.RunState

/-!
# Merging two manifests of a task

A merge starts from a base and takes values from an update: the required ones in any
case, the fallbacks where the base has no other value, and the history that only the
update has. Everything else comes from the base.
-/

namespace MrBoxington.TaskManifest

open Protocol (Digest ActionPrediction TaskActionManifest Json)

/-- The predictions of an update that win over a base. -/
def mergeUpdates (base update : List ActionPrediction) (required fallbacks : Finset Digest) :
    List ActionPrediction :=
  let basePredictions := Keyed.index ActionPrediction.invocation base
  update.filter fun prediction =>
    prediction.invocation ∈ required ∨ (prediction.invocation ∈ fallbacks ∧
      basePredictions[prediction.invocation]?.all fun base => base = prediction)

/-- The history of an update that a base does not have, and the base. -/
def mergeHistory (base update : List ActionPrediction) : List ActionPrediction :=
  let basePredictions := Keyed.index ActionPrediction.invocation base
  (update.filter fun prediction => !basePredictions.contains prediction.invocation) ++ base

/-- The merged predictions before the oldest are retired. -/
def mergedPredictions (base update : List ActionPrediction) (required fallbacks : Finset Digest) :
    List ActionPrediction :=
  combinedPredictions (mergeHistory base update) (mergeUpdates base update required fallbacks)

/-- Merge two manifests of a task. -/
def mergeTaskManifests (json : Json) (task : String) (base update : TaskActionManifest)
    (required fallbacks : Finset Digest) : Except String TaskActionManifest :=
  match validateTaskManifest json base task, validateTaskManifest json update task with
  | .error message, _ => .error message
  | .ok (), .error message => .error message
  | .ok (), .ok () =>
    let updates := mergeUpdates base.predictions update.predictions required fallbacks
    let guarded := required ∪ (updates.map ActionPrediction.invocation).toFinset
    match updateTaskPredictionsInOrder json (mergeHistory base.predictions update.predictions)
        updates guarded with
    | .error message => .error message
    | .ok predictions =>
      let manifest := ⟨taskActionManifestVersion, task, predictions⟩
      match validateTaskManifest json manifest task with
      | .error message => .error message
      | .ok () => .ok manifest

variable {json : Json} {task : String} {base update merged : TaskActionManifest}
  {required fallbacks : Finset Digest} {prediction : ActionPrediction}

theorem nodup_of_validateTaskManifest {manifest : TaskActionManifest}
    (hvalid : validateTaskManifest json manifest task = .ok ()) :
    (manifest.predictions.map ActionPrediction.invocation).Nodup := by
  unfold validateTaskManifest at hvalid
  split at hvalid
  · rename_i hchecked
    simp only [TaskActionManifest.validate, decide_eq_true_eq] at hchecked
    exact hchecked.2.2.2.2.2
  · cases hvalid

/-- What a merge that succeeds has checked and built. -/
theorem mergeTaskManifests_ok
    (hok : mergeTaskManifests json task base update required fallbacks = .ok merged) :
    validateTaskManifest json base task = .ok () ∧
      validateTaskManifest json update task = .ok () ∧
      validateTaskManifest json merged task = .ok () ∧
      updateTaskPredictionsInOrder json (mergeHistory base.predictions update.predictions)
        (mergeUpdates base.predictions update.predictions required fallbacks)
        (required ∪ ((mergeUpdates base.predictions update.predictions required fallbacks).map
          ActionPrediction.invocation).toFinset) = .ok merged.predictions := by
  unfold mergeTaskManifests at hok
  split at hok
  · cases hok
  · cases hok
  · rename_i hbase hupdate
    dsimp only at hok
    split at hok
    · cases hok
    · rename_i predictions hpredictions
      split at hok
      · cases hok
      · rename_i hmerged
        cases hok
        exact ⟨hbase, hupdate, hmerged, hpredictions⟩

private theorem mem_of_mem_mergedPredictions {base update : List ActionPrediction}
    (hmem : prediction ∈ mergedPredictions base update required fallbacks) :
    prediction ∈ base ∨ prediction ∈ update := by
  rcases Keyed.mem_of_mem_merge hmem with hhistory | hupdates
  · rcases List.mem_append.mp hhistory with hupdate | hbase
    · exact .inr (List.mem_of_mem_filter hupdate)
    · exact .inl hbase
  · exact .inr (List.mem_of_mem_filter hupdates)

/-- A merge invents no prediction. -/
theorem mem_of_mem_merged
    (hok : mergeTaskManifests json task base update required fallbacks = .ok merged)
    (hmem : prediction ∈ merged.predictions) :
    prediction ∈ base.predictions ∨ prediction ∈ update.predictions := by
  obtain ⟨-, -, -, hupdate⟩ := mergeTaskManifests_ok hok
  exact mem_of_mem_mergedPredictions ((updateTaskPredictionsInOrder_ok hupdate).1.subset hmem)

theorem contains_index {base : List ActionPrediction} {invocation : Digest} :
    (Keyed.index ActionPrediction.invocation base).contains invocation = true ↔
      invocation ∈ base.map ActionPrediction.invocation := by
  rw [Std.TreeMap.contains_eq_isSome_getElem?, Keyed.getElem?_index, Option.isSome_iff_ne_none,
    ne_eq, Keyed.lookup_eq_none_iff, List.map_reverse, List.mem_reverse, not_not]

private theorem nodup_mergeHistory {base update : List ActionPrediction}
    (hbase : (base.map ActionPrediction.invocation).Nodup)
    (hupdate : (update.map ActionPrediction.invocation).Nodup) :
    ((mergeHistory base update).map ActionPrediction.invocation).Nodup := by
  rw [mergeHistory, List.map_append, List.nodup_append']
  refine ⟨hupdate.sublist (List.filter_sublist.map _), hbase, fun invocation hleft hright => ?_⟩
  obtain ⟨prediction, hmem, rfl⟩ := List.mem_map.mp hleft
  have hfresh := (List.mem_filter.mp hmem).2
  rw [contains_index.2 hright] at hfresh
  cases hfresh

private theorem nodup_mergedPredictions {base update : List ActionPrediction}
    (hbase : (base.map ActionPrediction.invocation).Nodup)
    (hupdate : (update.map ActionPrediction.invocation).Nodup) :
    ((mergedPredictions base update required fallbacks).map
      ActionPrediction.invocation).Nodup :=
  Keyed.nodup_merge (nodup_mergeHistory hbase hupdate)

private theorem latest_mergeUpdates {base update : List ActionPrediction}
    (hupdate : (update.map ActionPrediction.invocation).Nodup) :
    Keyed.latest ActionPrediction.invocation (mergeUpdates base update required fallbacks) =
      mergeUpdates base update required fallbacks :=
  Keyed.latest_of_nodup (hupdate.sublist (List.filter_sublist.map _))

private theorem mem_mergedPredictions_base {base update : List ActionPrediction}
    (hbase : (base.map ActionPrediction.invocation).Nodup)
    (hupdate : (update.map ActionPrediction.invocation).Nodup) (hmem : prediction ∈ base)
    (hrequired : prediction.invocation ∉ required) :
    prediction ∈ mergedPredictions base update required fallbacks := by
  by_cases hnamed : prediction.invocation ∈
      (mergeUpdates base update required fallbacks).map ActionPrediction.invocation
  · -- Only a fallback can name it, with the value that the base has.
    obtain ⟨found, hfound, heq⟩ := List.mem_map.mp hnamed
    have hindex : (Keyed.index ActionPrediction.invocation base)[found.invocation]? =
        some prediction := by
      rw [Keyed.getElem?_index_of_nodup hbase, heq]
      exact Keyed.lookup_of_mem hbase hmem
    have hsame := of_decide_eq_true (List.mem_filter.mp hfound).2
    rw [hindex, heq] at hsame
    obtain rfl : prediction = found := by simpa using (hsame.resolve_left hrequired).2
    refine List.mem_append_right _ ?_
    rwa [latest_mergeUpdates hupdate]
  · refine List.mem_append_left _ (List.mem_filter.mpr ⟨List.mem_append_right _ hmem, ?_⟩)
    simpa using hnamed

/-- For a required invocation a merge has the value of the update, or else that of the
base. -/
theorem lookup_merged_required
    (hok : mergeTaskManifests json task base update required fallbacks = .ok merged)
    {invocation : Digest} (hrequired : invocation ∈ required) :
    Keyed.lookup ActionPrediction.invocation merged.predictions invocation =
      (Keyed.lookup ActionPrediction.invocation update.predictions invocation).or
        (Keyed.lookup ActionPrediction.invocation base.predictions invocation) := by
  obtain ⟨hbase, hupdate, hmerged, hpredictions⟩ := mergeTaskManifests_ok hok
  have hbase := nodup_of_validateTaskManifest hbase
  have hupdate := nodup_of_validateTaskManifest hupdate
  obtain ⟨hsublist, hguarded, -⟩ := updateTaskPredictionsInOrder_ok hpredictions
  have hupdates : Keyed.lookup ActionPrediction.invocation
      (mergeUpdates base.predictions update.predictions required fallbacks).reverse invocation =
      Keyed.lookup ActionPrediction.invocation update.predictions invocation := by
    rw [Keyed.lookup_perm (List.reverse_perm _), mergeUpdates, Keyed.lookup_filter]
    · rintro prediction - rfl
      simp [hrequired]
    · rw [List.map_reverse, List.nodup_reverse]
      exact hupdate.sublist (List.filter_sublist.map _)
  rw [Keyed.lookup_of_sublist hsublist (nodup_mergedPredictions hbase hupdate) fun prediction hmem
    heq => hguarded prediction hmem (Finset.mem_union_left _ (heq ▸ hrequired)),
    combinedPredictions, Keyed.lookup_merge, hupdates]
  cases hfound : Keyed.lookup ActionPrediction.invocation update.predictions invocation with
  | some prediction => rfl
  | none =>
    rw [Option.none_or, Option.none_or, mergeHistory, Keyed.lookup_append]
    rw [Keyed.lookup_eq_none_iff.2 fun hmem => Keyed.lookup_eq_none_iff.1 hfound
      ((List.filter_sublist.map _).subset hmem), Option.none_or]

/-- A merge carries the other predictions of the base, except for those that the bounds
retire: then no prediction for the invocation is left. -/
theorem mem_merged_base
    (hok : mergeTaskManifests json task base update required fallbacks = .ok merged)
    (hmem : prediction ∈ base.predictions) (hrequired : prediction.invocation ∉ required) :
    prediction ∈ merged.predictions ∨
      prediction.invocation ∉ merged.predictions.map ActionPrediction.invocation ∧
        ¬FitsManifest json
          (mergedPredictions base.predictions update.predictions required fallbacks) := by
  obtain ⟨hbase, hupdate, -, hpredictions⟩ := mergeTaskManifests_ok hok
  obtain ⟨hsublist, -, hfits⟩ := updateTaskPredictionsInOrder_ok hpredictions
  have hbase := nodup_of_validateTaskManifest hbase
  have hupdate := nodup_of_validateTaskManifest hupdate
  have hcombined := @mem_mergedPredictions_base required fallbacks prediction _ _ hbase hupdate
    hmem hrequired
  by_cases hkept : prediction ∈ merged.predictions
  · exact .inl hkept
  · refine .inr ⟨fun hnamed => hkept ?_, fun hbounds => hkept ?_⟩
    · obtain ⟨found, hfound, heq⟩ := List.mem_map.mp hnamed
      have hsame := List.inj_on_of_nodup_map (nodup_mergedPredictions hbase hupdate)
        (hsublist.subset hfound) hcombined heq
      rwa [← hsame]
    · rw [hfits hbounds]
      exact hcombined

/-- Valid manifests that fit together are merged. -/
theorem mergeTaskManifests_of_fits {predictions : List ActionPrediction}
    (hbase : validateTaskManifest json base task = .ok ())
    (hupdate : validateTaskManifest json update task = .ok ())
    (hpredictions : mergedPredictions base.predictions update.predictions required fallbacks =
      predictions)
    (hcard : (required ∪ ((mergeUpdates base.predictions update.predictions required
      fallbacks).map ActionPrediction.invocation).toFinset).card ≤
        Protocol.maxTaskActionPredictions)
    (hfits : FitsManifest json predictions)
    (hmerged : validateTaskManifest json ⟨taskActionManifestVersion, task, predictions⟩ task =
      .ok ()) :
    mergeTaskManifests json task base update required fallbacks =
      .ok ⟨taskActionManifestVersion, task, predictions⟩ := by
  subst hpredictions
  rw [mergeTaskManifests, hbase, hupdate]
  dsimp only
  rw [updateTaskPredictionsInOrder_of_fits hcard hfits]
  dsimp only
  rw [mergedPredictions] at hmerged
  rw [hmerged]
  rfl

end MrBoxington.TaskManifest
