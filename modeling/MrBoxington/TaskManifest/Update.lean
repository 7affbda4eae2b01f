import Mathlib.Algebra.BigOperators.Group.List.Lemmas
import Mathlib.Algebra.Order.Ring.Nat
import Mathlib.Data.Finset.Card
import MrBoxington.Lib.KeyedMap
import MrBoxington.Protocol.Manifest

/-!
# Updating a task manifest

Updates replace the predictions for their invocations and go to the end of the
manifest, as its newest entries. A manifest that gets too long, or too large in
bytes, loses its oldest predictions, except for those that are guarded.
-/

namespace MrBoxington.TaskManifest

open Protocol (Digest ActionPrediction Json maxTaskActionPredictions)

/-- The largest manifest in bytes. -/
def maxTaskManifestBytes : ℕ := 15 * 1024 * 1024

/-- Room for everything in a manifest but its predictions. -/
def taskManifestOverheadBytes : ℕ := 256

/-- The message when the guarded predictions do not fit. -/
def tooManyPredictions : String := "this task run contains too many action predictions"

/-- The predictions that no update names, followed by the last update for each
invocation. -/
def combinedPredictions (predictions updates : List ActionPrediction) : List ActionPrediction :=
  Keyed.merge ActionPrediction.invocation predictions updates

/-- Drop the oldest predictions that are not guarded, `excess` of them. -/
def retireExcess (guarded : Finset Digest) : ℕ → List ActionPrediction → List ActionPrediction
  | _, [] => []
  | excess, prediction :: rest =>
    if 0 < excess ∧ prediction.invocation ∉ guarded then retireExcess guarded (excess - 1) rest
    else prediction :: retireExcess guarded excess rest

/-- The bytes that a prediction takes in a manifest. -/
def entryBytes (json : Json) (prediction : ActionPrediction) : ℕ :=
  json.predictionBytes prediction + 1

/-- The bytes that a manifest takes. -/
def manifestBytes (json : Json) (predictions : List ActionPrediction) : ℕ :=
  taskManifestOverheadBytes + (predictions.map (entryBytes json)).sum

/-- Drop the oldest predictions that are not guarded until the rest fits. The result
has the bytes left. -/
def retireOversize (json : Json) (guarded : Finset Digest) :
    ℕ → List ActionPrediction → List ActionPrediction × ℕ
  | total, [] => ([], total)
  | total, prediction :: rest =>
    if maxTaskManifestBytes < total ∧ prediction.invocation ∉ guarded then
      retireOversize json guarded (total - entryBytes json prediction) rest
    else
      let (retained, left) := retireOversize json guarded total rest
      (prediction :: retained, left)

/-- Append updates and keep the manifest bounded. -/
def updateTaskPredictionsInOrder (json : Json) (predictions updates : List ActionPrediction)
    (guarded : Finset Digest) : Except String (List ActionPrediction) :=
  if maxTaskActionPredictions < guarded.card then .error tooManyPredictions
  else
    let combined := combinedPredictions predictions updates
    let kept := retireExcess guarded (combined.length - maxTaskActionPredictions) combined
    if maxTaskManifestBytes < manifestBytes json kept then
      let (retained, left) := retireOversize json guarded (manifestBytes json kept) kept
      if maxTaskManifestBytes < left then .error tooManyPredictions else .ok retained
    else .ok kept

/-- Updates in the order of their invocations. -/
def updateTaskPredictions (json : Json) (predictions : List ActionPrediction)
    (updates : Std.TreeMap Digest ActionPrediction) (guarded : Finset Digest) :
    Except String (List ActionPrediction) :=
  updateTaskPredictionsInOrder json predictions (Keyed.values updates) guarded

/-- Predictions within the bounds of a manifest. -/
def FitsManifest (json : Json) (predictions : List ActionPrediction) : Prop :=
  predictions.length ≤ maxTaskActionPredictions ∧
    manifestBytes json predictions ≤ maxTaskManifestBytes

private theorem retireExcess_zero {guarded : Finset Digest} {predictions : List ActionPrediction} :
    retireExcess guarded 0 predictions = predictions := by
  induction predictions with
  | nil => rfl
  | cons prediction rest ih => simp [retireExcess, ih]

/-- Where everything fits the update retires nothing. -/
theorem updateTaskPredictionsInOrder_of_fits {json : Json}
    {predictions updates : List ActionPrediction} {guarded : Finset Digest}
    (hguarded : guarded.card ≤ maxTaskActionPredictions)
    (hfits : FitsManifest json (combinedPredictions predictions updates)) :
    updateTaskPredictionsInOrder json predictions updates guarded =
      .ok (combinedPredictions predictions updates) := by
  obtain ⟨hcount, hbytes⟩ := hfits
  unfold updateTaskPredictionsInOrder
  rw [if_neg (Nat.not_lt.mpr hguarded)]
  dsimp only
  rw [Nat.sub_eq_zero_of_le hcount, retireExcess_zero, if_neg (Nat.not_lt.mpr hbytes)]

private theorem retireExcess_sublist {guarded : Finset Digest} {excess : ℕ}
    {predictions : List ActionPrediction} :
    (retireExcess guarded excess predictions).Sublist predictions := by
  induction predictions generalizing excess with
  | nil => exact .slnil
  | cons prediction rest ih =>
    unfold retireExcess
    split
    · exact ih.cons _
    · exact ih.cons_cons _

private theorem mem_retireExcess {guarded : Finset Digest} {excess : ℕ}
    {predictions : List ActionPrediction} {prediction : ActionPrediction}
    (hguarded : prediction.invocation ∈ guarded) (hmem : prediction ∈ predictions) :
    prediction ∈ retireExcess guarded excess predictions := by
  induction predictions generalizing excess with
  | nil => exact hmem
  | cons first rest ih =>
    unfold retireExcess
    rcases List.mem_cons.mp hmem with rfl | hrest
    · rw [if_neg fun h => h.2 hguarded]
      exact List.mem_cons_self
    · split
      · exact ih hrest
      · exact List.mem_cons_of_mem _ (ih hrest)

private theorem retireOversize_sublist {json : Json} {guarded : Finset Digest} {total : ℕ}
    {predictions : List ActionPrediction} :
    (retireOversize json guarded total predictions).1.Sublist predictions := by
  induction predictions generalizing total with
  | nil => exact .slnil
  | cons prediction rest ih =>
    unfold retireOversize
    split
    · exact ih.cons _
    · exact ih.cons_cons _

private theorem mem_retireOversize {json : Json} {guarded : Finset Digest} {total : ℕ}
    {predictions : List ActionPrediction} {prediction : ActionPrediction}
    (hguarded : prediction.invocation ∈ guarded) (hmem : prediction ∈ predictions) :
    prediction ∈ (retireOversize json guarded total predictions).1 := by
  induction predictions generalizing total with
  | nil => exact hmem
  | cons first rest ih =>
    unfold retireOversize
    rcases List.mem_cons.mp hmem with rfl | hrest
    · rw [if_neg fun h => h.2 hguarded]
      exact List.mem_cons_self
    · split
      · exact ih hrest
      · exact List.mem_cons_of_mem _ (ih hrest)

/-- What an update keeps: some of the combined predictions, all that are guarded, and
everything within the bounds. -/
theorem updateTaskPredictionsInOrder_ok {json : Json}
    {predictions updates kept : List ActionPrediction} {guarded : Finset Digest}
    (hok : updateTaskPredictionsInOrder json predictions updates guarded = .ok kept) :
    kept.Sublist (combinedPredictions predictions updates) ∧
      (∀ prediction ∈ combinedPredictions predictions updates,
        prediction.invocation ∈ guarded → prediction ∈ kept) ∧
      (FitsManifest json (combinedPredictions predictions updates) →
        kept = combinedPredictions predictions updates) := by
  have hfits : FitsManifest json (combinedPredictions predictions updates) →
      kept = combinedPredictions predictions updates := by
    intro hfits
    by_cases hguarded : guarded.card ≤ maxTaskActionPredictions
    · rw [updateTaskPredictionsInOrder_of_fits hguarded hfits] at hok
      exact (Except.ok.inj hok).symm
    · rw [updateTaskPredictionsInOrder, if_pos (Nat.lt_of_not_le hguarded)] at hok
      cases hok
  unfold updateTaskPredictionsInOrder at hok
  split at hok
  · cases hok
  · dsimp only at hok
    split at hok
    · split at hok
      · cases hok
      · cases hok
        exact ⟨retireOversize_sublist.trans retireExcess_sublist, fun _ hmem hguarded =>
          mem_retireOversize hguarded (mem_retireExcess hguarded hmem), hfits⟩
    · cases hok
      exact ⟨retireExcess_sublist, fun _ hmem hguarded => mem_retireExcess hguarded hmem, hfits⟩

end MrBoxington.TaskManifest
