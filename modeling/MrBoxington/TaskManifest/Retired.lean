import Mathlib.Algebra.Order.BigOperators.Group.List
import MrBoxington.Lib.Retire
import MrBoxington.TaskManifest.Update

/-!
# What an update retires

An update that succeeds retires the shortest run of the oldest unguarded predictions after
which the manifest is within its bounds, and the manifest in canonical JSON is then within
the byte bound too. It fails only when the guarded predictions alone are out of bounds.
-/

namespace MrBoxington.TaskManifest

open Protocol (ActionPrediction Digest Json maxTaskActionPredictions validTaskIdentity)
open Retire (retire)

/-- Whether a prediction may be retired. -/
def unguarded (guarded : Finset Digest) (prediction : ActionPrediction) : Bool :=
  prediction.invocation ∉ guarded

section Passes

variable {json : Json} {guarded : Finset Digest} {predictions : List ActionPrediction}

private theorem retireExcess_eq_retire {excess : ℕ} :
    retireExcess guarded excess predictions = retire (unguarded guarded) excess predictions := by
  induction predictions generalizing excess with
  | nil => simp [retireExcess]
  | cons prediction rest ih =>
    by_cases hguarded : prediction.invocation ∈ guarded
    · rw [retireExcess, if_neg fun h => h.2 hguarded, ih,
        Retire.retire_of_neg (by simp [unguarded, hguarded])]
    · cases excess with
      | zero => rw [retireExcess, if_neg fun h => Nat.lt_irrefl 0 h.1, ih]; rfl
      | succ excess =>
        rw [retireExcess, if_pos ⟨Nat.succ_pos _, hguarded⟩, ih,
          Retire.retire_succ_of_pos (by simp [unguarded, hguarded])]
        rfl

private theorem retireOversize_of_le {total : ℕ} (htotal : ¬maxTaskManifestBytes < total) :
    retireOversize json guarded total predictions = (predictions, total) := by
  induction predictions with
  | nil => rfl
  | cons first rest ih => rw [retireOversize, if_neg fun h => htotal h.1, ih]

/-- The second pass retires predictions until their bytes are within the bound. The bytes
`kept` are those of predictions that stayed before. -/
theorem retireOversize_eq_retire {kept : ℕ} :
    ∃ k, retireOversize json guarded (kept + (predictions.map (entryBytes json)).sum) predictions =
        (retire (unguarded guarded) k predictions,
          kept + ((retire (unguarded guarded) k predictions).map (entryBytes json)).sum) ∧
      (∀ j < k, maxTaskManifestBytes <
        kept + ((retire (unguarded guarded) j predictions).map (entryBytes json)).sum) ∧
      (maxTaskManifestBytes <
          kept + ((retire (unguarded guarded) k predictions).map (entryBytes json)).sum →
        predictions.countP (unguarded guarded) ≤ k) := by
  induction predictions generalizing kept with
  | nil => exact ⟨0, rfl, fun j hj => absurd hj (Nat.not_lt_zero j), fun _ => Nat.le_refl 0⟩
  | cons prediction rest ih =>
    rw [List.map_cons, List.sum_cons]
    by_cases hguarded : prediction.invocation ∈ guarded
    · -- A guarded prediction stays, and its bytes count for the rest.
      have hneg : unguarded guarded prediction = false := by simp [unguarded, hguarded]
      obtain ⟨k, hpass, hminimal, hall⟩ := @ih (kept + entryBytes json prediction)
      have hsum : ∀ j, kept + ((retire (unguarded guarded) j (prediction :: rest)).map
          (entryBytes json)).sum = kept + entryBytes json prediction +
            ((retire (unguarded guarded) j rest).map (entryBytes json)).sum := by
        intro j
        rw [Retire.retire_of_neg hneg, List.map_cons, List.sum_cons, Nat.add_assoc]
      refine ⟨k, ?_, fun j hj => hsum j ▸ hminimal j hj, fun hlarge => ?_⟩
      · rw [hsum, retireOversize, if_neg fun h => h.2 hguarded, ← Nat.add_assoc, hpass,
          Retire.retire_of_neg hneg]
      · rw [List.countP_cons_of_neg (by simp [hneg])]
        exact hall (hsum k ▸ hlarge)
    · have hpos : unguarded guarded prediction = true := by simp [unguarded, hguarded]
      by_cases hlarge : maxTaskManifestBytes <
          kept + (entryBytes json prediction + (rest.map (entryBytes json)).sum)
      · obtain ⟨k, hpass, hminimal, hall⟩ := @ih kept
        have hleft : kept + (entryBytes json prediction + (rest.map (entryBytes json)).sum) -
            entryBytes json prediction = kept + (rest.map (entryBytes json)).sum := by omega
        refine ⟨k + 1, ?_, fun j hj => ?_, fun hlarge => ?_⟩
        · rw [retireOversize, if_pos ⟨hlarge, hguarded⟩, hleft, hpass,
            Retire.retire_succ_of_pos hpos]
        · cases j with
          | zero => rwa [Retire.retire_zero, List.map_cons, List.sum_cons]
          | succ j =>
            rw [Retire.retire_succ_of_pos hpos]
            exact hminimal j (Nat.lt_of_succ_lt_succ hj)
        · rw [List.countP_cons_of_pos hpos]
          rw [Retire.retire_succ_of_pos hpos] at hlarge
          exact Nat.succ_le_succ (hall hlarge)
      · -- The bytes are within the bound, so the rest stays as well.
        refine ⟨0, ?_, fun j hj => absurd hj (Nat.not_lt_zero j), fun h => absurd h ?_⟩
        · rw [retireOversize_of_le hlarge]
          rfl
        · simpa using Nat.not_lt.mp hlarge

end Passes

/-- The text of a list in canonical JSON, between the brackets. -/
def commaSeparated : List String → String
  | [] => ""
  | [text] => text
  | text :: next :: rest => text ++ "," ++ commaSeparated (next :: rest)

/-- A manifest in canonical JSON: the keys are in order and nothing is between the tokens. -/
def canonicalManifest (text : ActionPrediction → String) (task : String)
    (predictions : List ActionPrediction) : String :=
  "\x7b\"predictions\":[" ++ commaSeparated (predictions.map text) ++ "],\"task\":\"" ++ task ++
    "\",\"version\":1\x7d"

private theorem utf8ByteSize_commaSeparated {texts : List String} :
    (commaSeparated texts).utf8ByteSize ≤ (texts.map fun text => text.utf8ByteSize + 1).sum := by
  have hcomma : ",".utf8ByteSize = 1 := by decide
  induction texts with
  | nil => exact Nat.le_refl 0
  | cons text rest ih =>
    rw [List.map_cons, List.sum_cons]
    cases rest with
    | nil =>
      rw [commaSeparated]
      omega
    | cons next rest =>
      rw [commaSeparated, String.utf8ByteSize_append, String.utf8ByteSize_append, hcomma]
      omega

private theorem utf8ByteSize_canonicalManifest_le {json : Json} {text : ActionPrediction → String}
    (htext : ∀ prediction, (text prediction).utf8ByteSize = json.predictionBytes prediction)
    {task : String} (htask : validTaskIdentity task = true)
    (predictions : List ActionPrediction) :
    (canonicalManifest text task predictions).utf8ByteSize ≤ manifestBytes json predictions := by
  have hhash : task.utf8ByteSize = 64 := by
    rw [validTaskIdentity, Protocol.isHash, decide_eq_true_eq] at htask
    exact htask.1
  have hopen : "\x7b\"predictions\":[".utf8ByteSize = 16 := by decide
  have hmiddle : "],\"task\":\"".utf8ByteSize = 10 := by decide
  have hclose : "\",\"version\":1\x7d".utf8ByteSize = 14 := by decide
  have hentries := @utf8ByteSize_commaSeparated (predictions.map text)
  have hbytes : ((predictions.map text).map fun text => text.utf8ByteSize + 1) =
      predictions.map (entryBytes json) := by
    rw [List.map_map]
    exact List.map_congr_left fun prediction _ => congrArg (· + 1) (htext prediction)
  rw [hbytes] at hentries
  have hsize : (canonicalManifest text task predictions).utf8ByteSize =
      16 + (commaSeparated (predictions.map text)).utf8ByteSize + 10 + 64 + 14 := by
    unfold canonicalManifest
    rw [String.utf8ByteSize_append, String.utf8ByteSize_append, String.utf8ByteSize_append,
      String.utf8ByteSize_append, hhash, hopen, hmiddle, hclose]
  have hoverhead : manifestBytes json predictions =
    256 + (predictions.map (entryBytes json)).sum := rfl
  clear hopen hmiddle hclose
  omega

section Update

variable {json : Json} {guarded : Finset Digest} {predictions updates : List ActionPrediction}

private theorem countP_guarded_le {combined : List ActionPrediction}
    (hnodup : (combined.map ActionPrediction.invocation).Nodup) :
    (combined.filter fun prediction => !unguarded guarded prediction).length ≤ guarded.card := by
  have hnodup' := hnodup.sublist
    ((List.filter_sublist (p := fun prediction => !unguarded guarded prediction)).map
      ActionPrediction.invocation)
  rw [← List.length_map ActionPrediction.invocation, ← List.toFinset_card_of_nodup hnodup']
  refine Finset.card_le_card fun invocation hmem => ?_
  obtain ⟨prediction, hprediction, rfl⟩ := List.mem_map.mp (List.mem_toFinset.mp hmem)
  simpa [unguarded] using (List.mem_filter.mp hprediction).2

private theorem length_retire_excess {combined : List ActionPrediction} {k : ℕ}
    (hnodup : (combined.map ActionPrediction.invocation).Nodup)
    (hcard : guarded.card ≤ maxTaskActionPredictions) :
    (retire (unguarded guarded) k combined).length ≤ maxTaskActionPredictions ↔
      combined.length - maxTaskActionPredictions ≤ k := by
  have hguarded := (@countP_guarded_le guarded combined hnodup).trans hcard
  have hsplit := List.length_eq_countP_add_countP (unguarded guarded) (l := combined)
  rw [← List.countP_eq_length_filter] at hguarded
  have hnot : combined.countP (fun prediction => !unguarded guarded prediction) =
      combined.countP fun prediction => decide ¬unguarded guarded prediction = true := by
    congr 1
    funext prediction
    simp
  rw [Retire.length_retire]
  omega

private theorem updateTaskPredictionsInOrder_eq_retire
    (hcard : guarded.card ≤ maxTaskActionPredictions) :
    ∃ k, (combinedPredictions predictions updates).length - maxTaskActionPredictions ≤ k ∧
      (∀ j < k, (combinedPredictions predictions updates).length - maxTaskActionPredictions ≤ j →
        maxTaskManifestBytes < manifestBytes json
          (retire (unguarded guarded) j (combinedPredictions predictions updates))) ∧
      (maxTaskManifestBytes < manifestBytes json
          (retire (unguarded guarded) k (combinedPredictions predictions updates)) →
        (combinedPredictions predictions updates).countP (unguarded guarded) ≤ k) ∧
      updateTaskPredictionsInOrder json predictions updates guarded =
        if maxTaskManifestBytes < manifestBytes json
            (retire (unguarded guarded) k (combinedPredictions predictions updates)) then
          .error tooManyPredictions
        else .ok (retire (unguarded guarded) k (combinedPredictions predictions updates)) := by
  let combined := combinedPredictions predictions updates
  let excess := combined.length - maxTaskActionPredictions
  have hstart : updateTaskPredictionsInOrder json predictions updates guarded =
      if maxTaskManifestBytes < manifestBytes json (retire (unguarded guarded) excess combined) then
        let pass := retireOversize json guarded
          (manifestBytes json (retire (unguarded guarded) excess combined))
          (retire (unguarded guarded) excess combined)
        if maxTaskManifestBytes < pass.2 then .error tooManyPredictions else .ok pass.1
      else .ok (retire (unguarded guarded) excess combined) := by
    rw [updateTaskPredictionsInOrder, if_neg (Nat.not_lt.mpr hcard)]
    simp only [retireExcess_eq_retire]
    rfl
  by_cases hlarge : maxTaskManifestBytes <
      manifestBytes json (retire (unguarded guarded) excess combined)
  · obtain ⟨k, hpass, hminimal, hall⟩ := @retireOversize_eq_retire json guarded
      (retire (unguarded guarded) excess combined) taskManifestOverheadBytes
    rw [← Retire.retire_add] at hpass hall
    refine ⟨excess + k, Nat.le_add_right _ _, fun j hj hexcess => ?_, fun hstill => ?_, ?_⟩
    · obtain ⟨j, rfl⟩ := Nat.exists_eq_add_of_le hexcess
      rw [Retire.retire_add]
      exact hminimal j (Nat.lt_of_add_lt_add_left hj)
    · have hcount := hall hstill
      rw [Retire.countP_retire] at hcount
      exact Nat.sub_le_iff_le_add'.mp hcount
    · rw [hstart, if_pos hlarge]
      dsimp only
      rw [show manifestBytes json (retire (unguarded guarded) excess combined) =
        taskManifestOverheadBytes + ((retire (unguarded guarded) excess combined).map
          (entryBytes json)).sum from rfl, hpass]
      rfl
  · refine ⟨excess, Nat.le_refl _, fun j hj hexcess => absurd hj (Nat.not_lt.mpr hexcess),
      fun h => absurd h hlarge, ?_⟩
    rw [hstart, if_neg hlarge, if_neg hlarge]

/-- An update succeeds exactly where the guarded predictions fit. -/
theorem updateTaskPredictionsInOrder_ok_iff (hcard : guarded.card ≤ maxTaskActionPredictions) :
    (∃ kept, updateTaskPredictionsInOrder json predictions updates guarded = .ok kept) ↔
      manifestBytes json ((combinedPredictions predictions updates).filter
        fun prediction => prediction.invocation ∈ guarded) ≤ maxTaskManifestBytes := by
  have hfilter : ((combinedPredictions predictions updates).filter
      fun prediction => prediction.invocation ∈ guarded) =
      (combinedPredictions predictions updates).filter
        fun prediction => !unguarded guarded prediction := by
    simp [unguarded]
  obtain ⟨k, -, -, hall, hupdate⟩ :=
    @updateTaskPredictionsInOrder_eq_retire json guarded predictions updates hcard
  rw [hupdate, hfilter]
  split
  · rename_i hlarge
    rw [Retire.retire_of_countP_le (hall hlarge)] at hlarge
    exact ⟨fun ⟨kept, hok⟩ => (by cases hok), fun hbytes => absurd hlarge (Nat.not_lt.mpr hbytes)⟩
  · rename_i hbytes
    refine ⟨fun _ => Nat.le_trans ?_ (Nat.not_lt.mp hbytes), fun _ => ⟨_, rfl⟩⟩
    rw [← Retire.filter_not_retire (k := k)]
    exact Nat.add_le_add_left ((List.filter_sublist.map _).sum_le_sum fun _ _ => Nat.zero_le _) _

end Update

/-- The predictions that no update names, followed by the updates, each invocation at its
last position and value. -/
def lastCombined (predictions updates : List ActionPrediction) : List ActionPrediction :=
  (predictions.filter fun prediction =>
      prediction.invocation ∉ updates.map ActionPrediction.invocation) ++
    Keyed.lasts ActionPrediction.invocation updates

private theorem combinedPredictions_eq_lastCombined {predictions updates : List ActionPrediction} :
    combinedPredictions predictions updates = lastCombined predictions updates := by
  rw [combinedPredictions, Keyed.merge, Keyed.latest_eq_lasts, lastCombined]
  simp only [List.mem_toFinset]

/-- An update that succeeds retires the shortest run of the oldest unguarded predictions that
meets both bounds, and its manifest is within the byte bound. It fails only if too many
invocations are guarded or the guarded predictions alone exceed the byte bound. -/
theorem updateTaskPredictionsInOrder_shortest (json : Json) (text : ActionPrediction → String)
    (htext : ∀ prediction, (text prediction).utf8ByteSize = json.predictionBytes prediction)
    (predictions : List ActionPrediction)
    (hnodup : (predictions.map ActionPrediction.invocation).Nodup)
    (updates : List ActionPrediction) (guarded : Finset Digest) :
    (∀ kept, updateTaskPredictionsInOrder json predictions updates guarded = .ok kept →
      (∃ k, kept = retire (unguarded guarded) k (lastCombined predictions updates) ∧
        FitsManifest json kept ∧
        ∀ j < k, ¬FitsManifest json
          (retire (unguarded guarded) j (lastCombined predictions updates))) ∧
      (kept.map ActionPrediction.invocation).Nodup ∧
      kept.length ≤ maxTaskActionPredictions ∧
      ∀ task, validTaskIdentity task = true →
        (canonicalManifest text task kept).utf8ByteSize ≤ maxTaskManifestBytes) ∧
    ∀ message, updateTaskPredictionsInOrder json predictions updates guarded = .error message →
      maxTaskActionPredictions < guarded.card ∨
        maxTaskManifestBytes < manifestBytes json ((lastCombined predictions updates).filter
          fun prediction => prediction.invocation ∈ guarded) := by
  rw [← combinedPredictions_eq_lastCombined]
  by_cases hcard : guarded.card ≤ maxTaskActionPredictions
  · have hcombined : ((combinedPredictions predictions updates).map
        ActionPrediction.invocation).Nodup := Keyed.nodup_merge hnodup
    obtain ⟨k, hexcess, hminimal, hall, hupdate⟩ :=
      @updateTaskPredictionsInOrder_eq_retire json guarded predictions updates hcard
    rw [hupdate]
    split
    · rename_i hlarge
      refine ⟨fun kept hok => (by cases hok), fun message _ => .inr ?_⟩
      rw [Retire.retire_of_countP_le (hall hlarge)] at hlarge
      simpa [unguarded] using hlarge
    · rename_i hbytes
      refine ⟨fun kept hok => ?_, fun message herror => (by cases herror)⟩
      cases hok
      have hcount := (length_retire_excess hcombined hcard).mpr hexcess
      have hfits : FitsManifest json
          (retire (unguarded guarded) k (combinedPredictions predictions updates)) :=
        ⟨hcount, Nat.not_lt.mp hbytes⟩
      refine ⟨⟨k, rfl, hfits, fun j hj hfits => ?_⟩,
        hcombined.sublist (Retire.retire_sublist.map _), hcount, fun task htask =>
          (utf8ByteSize_canonicalManifest_le htext htask _).trans hfits.2⟩
      exact Nat.not_lt.mpr hfits.2
        (hminimal j hj ((length_retire_excess hcombined hcard).mp hfits.1))
  · have hmany := Nat.lt_of_not_le hcard
    rw [updateTaskPredictionsInOrder, if_pos hmany]
    exact ⟨fun kept hok => (by cases hok), fun message _ => .inl hmany⟩

/-- A prediction for the invocation with a hash. -/
private def retirable (hash payload : String) : ActionPrediction :=
  ⟨⟨"blake3", hash, 1⟩, ⟨"blake3", "cd", 2⟩, "rustc", payload⟩

/-- A JSON in which a large prediction takes as much as a whole manifest. -/
private def largeBytes (prediction : ActionPrediction) : ℕ :=
  if prediction.payload = "large" then 15728640 else 2

/-- The letter `a`, repeated. -/
def letters (n : ℕ) : String := String.ofList (List.replicate n 'a')

/-- Each letter takes one byte. -/
theorem utf8ByteSize_letters (n : ℕ) : (letters n).utf8ByteSize = n := by
  induction n with
  | zero => rfl
  | succ n ih =>
    have hpush : letters (n + 1) = letters n ++ "a" := by
      rw [letters, List.replicate_succ', String.ofList_append]
      rfl
    have hletter : "a".utf8ByteSize = 1 := by decide
    rw [hpush, String.utf8ByteSize_append, ih, hletter]

/-- With the new prediction the manifest is too large, and the old one is retired. -/
theorem updateTaskPredictionsInOrder_shortest_replaced :
    ∃ kept, updateTaskPredictionsInOrder ⟨fun _ => true, largeBytes, id⟩ [retirable "ab" "large"]
        [retirable "ef" "new"] ∅ = .ok kept ∧ kept = [retirable "ef" "new"] ∧
      ∀ task, validTaskIdentity task = true →
        (canonicalManifest (letters ∘ largeBytes) task kept).utf8ByteSize ≤
          maxTaskManifestBytes := by
  have hok : updateTaskPredictionsInOrder ⟨fun _ => true, largeBytes, id⟩
      [retirable "ab" "large"] [retirable "ef" "new"] ∅ = .ok [retirable "ef" "new"] := by
    decide +kernel
  have hshortest := updateTaskPredictionsInOrder_shortest ⟨fun _ => true, largeBytes, id⟩
    (letters ∘ largeBytes) (fun _ => utf8ByteSize_letters _) [retirable "ab" "large"]
    (List.nodup_singleton _) [retirable "ef" "new"] ∅
  obtain ⟨-, -, -, hbytes⟩ := hshortest.1 _ hok
  exact ⟨_, hok, rfl, hbytes⟩

end MrBoxington.TaskManifest
