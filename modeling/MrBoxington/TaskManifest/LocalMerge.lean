import MrBoxington.TaskManifest.CommitRuns
import MrBoxington.TaskManifest.Merge
import MrBoxington.TaskManifest.Retired
import MrBoxington.TaskManifest.RunState

/-!
# The local merge of a commit

A commit guards what its run recorded, and then the newest values that other runs wrote
meanwhile, as many as a manifest may have. It does not count their bytes. So the merge is
refused when these values together with the run's own are too large, although the run's own
would fit.
-/

namespace MrBoxington.TaskManifest

open Protocol (ActionPrediction Digest Json TaskActionManifest maxTaskActionPredictions)
open Std (TreeMap)

/-- The merge of what a run recorded into the predictions on disk. -/
def localMerge (json : Json) (predictions : List ActionPrediction) (state : TaskActionState) :
    Except String (List ActionPrediction) :=
  let concurrentUpdates := concurrentTaskPredictions predictions state
  let effectiveUpdates := effectiveTaskUpdates predictions state
  let required := requiredLocalPredictions predictions effectiveUpdates concurrentUpdates
  updateTaskPredictions json predictions effectiveUpdates required

/-- A commit writes the merge of the stored manifest and its own predictions. -/
theorem commitTaskActions_eq_localMerge {json : Json} {disk : Option TaskActionManifest}
    {state : TaskActionState} :
    commitTaskActions json disk state =
      match localMerge json (manifestPredictions disk) state with
      | .error message => .error message
      | .ok predictions =>
        let manifest := ⟨taskActionManifestVersion, state.manifest, predictions⟩
        match validateTaskManifest json manifest state.manifest with
        | .error message => .error message
        | .ok () => .ok manifest := rfl

/-- Others wrote this value on disk after the run began, and the run did not record its
invocation. -/
def isConcurrent (state : TaskActionState) (prediction : ActionPrediction) : Bool :=
  state.pendingPredictions.contains prediction.invocation = false ∧
    state.baseline prediction.invocation ≠ some prediction

/-- The newest values on disk that others wrote, as many as fit beside the run's own by
number. -/
def newestConcurrent (predictions : List ActionPrediction) (state : TaskActionState) :
    List ActionPrediction :=
  (predictions.reverse.filter (isConcurrent state)).take
    (maxTaskActionPredictions - state.pendingPredictions.size)

section Guarded

variable {updates concurrentUpdates : TreeMap Digest ActionPrediction}

private theorem mem_guardConcurrent {required : Finset Digest} {predictions : List ActionPrediction}
    (hnodup : (predictions.map ActionPrediction.invocation).Nodup)
    (hcard : required.card ≤ maxTaskActionPredictions) (invocation : Digest) :
    invocation ∈ guardConcurrent concurrentUpdates required predictions ↔
      invocation ∈ required ∨
        invocation ∈ ((predictions.filter fun prediction =>
          prediction.invocation ∉ required ∧
            concurrentUpdates.contains prediction.invocation).take
              (maxTaskActionPredictions - required.card)).map ActionPrediction.invocation := by
  induction predictions generalizing required with
  | nil => simp [guardConcurrent]
  | cons prediction rest ih =>
    rw [List.map_cons, List.nodup_cons] at hnodup
    unfold guardConcurrent
    split
    · rename_i hfull
      simp [hfull]
    · rename_i hroom
      split
      · rename_i hconcurrent
        by_cases hrequired : prediction.invocation ∈ required
        · rw [Finset.insert_eq_of_mem hrequired, ih hnodup.2 hcard,
            List.filter_cons_of_neg (by simp [hrequired])]
        · -- One more is guarded, and there is room for one less.
          have hcard' : (insert prediction.invocation required).card = required.card + 1 :=
            Finset.card_insert_of_notMem hrequired
          have hrest : (rest.filter fun other =>
              other.invocation ∉ insert prediction.invocation required ∧
                concurrentUpdates.contains other.invocation) =
              rest.filter fun other => other.invocation ∉ required ∧
                concurrentUpdates.contains other.invocation := by
            refine List.filter_congr fun other hother => ?_
            have hne : other.invocation ≠ prediction.invocation := fun heq =>
              hnodup.1 (heq ▸ List.mem_map_of_mem hother)
            simp [hne]
          obtain ⟨room, hspace⟩ : ∃ room, maxTaskActionPredictions - required.card = room + 1 :=
            Nat.exists_eq_succ_of_ne_zero (by omega)
          rw [ih hnodup.2 (by omega), hrest, hcard',
            List.filter_cons_of_pos (by simp [hrequired, hconcurrent]), hspace, List.take_succ_cons,
            List.map_cons, List.mem_cons, Finset.mem_insert,
            show maxTaskActionPredictions - (required.card + 1) = room by omega]
          tauto
      · rename_i hquiet
        rw [ih hnodup.2 hcard, List.filter_cons_of_neg (by simp [hquiet])]

end Guarded

section Merge

variable {json : Json} {predictions : List ActionPrediction} {state : TaskActionState}

private theorem faithful_effectiveTaskUpdates
    (hpending : Keyed.Faithful ActionPrediction.invocation state.pendingPredictions) :
    Keyed.Faithful ActionPrediction.invocation (effectiveTaskUpdates predictions state) := by
  intro invocation prediction hfound
  rw [effectiveTaskUpdates, TreeMap.getElem?_map, Option.map_eq_some_iff] at hfound
  obtain ⟨update, hupdate, rfl⟩ := hfound
  have hkey := hpending _ _ hupdate
  split
  · exact hkey
  · cases hcurrent : (Keyed.index ActionPrediction.invocation predictions)[invocation]? with
    | none => exact hkey
    | some current => exact Keyed.faithful_index _ _ hcurrent

private theorem mem_keys_effectiveTaskUpdates {invocation : Digest} :
    invocation ∈ (effectiveTaskUpdates predictions state).keys.toFinset ↔
      state.pendingPredictions.contains invocation = true := by
  rw [List.mem_toFinset, TreeMap.mem_keys, ← TreeMap.contains_iff_mem, effectiveTaskUpdates,
    TreeMap.contains_map]

private theorem card_keys_effectiveTaskUpdates :
    (effectiveTaskUpdates predictions state).keys.toFinset.card =
      state.pendingPredictions.size := by
  rw [List.toFinset_card_of_nodup Keyed.nodup_keys, TreeMap.length_keys, effectiveTaskUpdates,
    TreeMap.size_map]

/-- Of several values on disk, those that differ from what the run started from are
concurrent. -/
private theorem contains_concurrentTaskPredictions {prediction : ActionPrediction}
    (hnodup : (predictions.map ActionPrediction.invocation).Nodup)
    (hmem : prediction ∈ predictions) :
    (concurrentTaskPredictions predictions state).contains prediction.invocation = true ↔
      state.baseline prediction.invocation ≠ some prediction := by
  rw [concurrentTaskPredictions, contains_index]
  constructor
  · intro hkey
    obtain ⟨other, hother, heq⟩ := List.mem_map.mp hkey
    obtain ⟨hmem', hdiffers⟩ := List.mem_filter.mp hother
    obtain rfl := List.inj_on_of_nodup_map hnodup hmem' hmem heq
    simpa using hdiffers
  · intro hdiffers
    exact List.mem_map_of_mem (List.mem_filter.mpr ⟨hmem, by simpa using hdiffers⟩)

private theorem mem_requiredLocalPredictions
    (hnodup : (predictions.map ActionPrediction.invocation).Nodup)
    (hcount : state.pendingPredictions.size ≤ maxTaskActionPredictions) (invocation : Digest) :
    invocation ∈ requiredLocalPredictions predictions (effectiveTaskUpdates predictions state)
        (concurrentTaskPredictions predictions state) ↔
      state.pendingPredictions.contains invocation = true ∨
        invocation ∈ (newestConcurrent predictions state).map ActionPrediction.invocation := by
  have hfilter : (predictions.reverse.filter fun prediction =>
      prediction.invocation ∉ (effectiveTaskUpdates predictions state).keys.toFinset ∧
        (concurrentTaskPredictions predictions state).contains prediction.invocation) =
      predictions.reverse.filter (isConcurrent state) := by
    refine List.filter_congr fun prediction hmem => ?_
    have hconcurrent := @contains_concurrentTaskPredictions predictions state prediction hnodup
      (List.mem_reverse.mp hmem)
    simp only [mem_keys_effectiveTaskUpdates, hconcurrent, isConcurrent, Bool.not_eq_true]
  rw [requiredLocalPredictions, mem_guardConcurrent (by rwa [List.map_reverse, List.nodup_reverse])
    (by rwa [card_keys_effectiveTaskUpdates]), mem_keys_effectiveTaskUpdates, hfilter,
    card_keys_effectiveTaskUpdates, newestConcurrent]

/-- The guarded predictions of the merge are the run's own and the newest concurrent ones. -/
theorem perm_filter_required
    (hnodup : (predictions.map ActionPrediction.invocation).Nodup)
    (hpending : Keyed.Faithful ActionPrediction.invocation state.pendingPredictions)
    (hcount : state.pendingPredictions.size ≤ maxTaskActionPredictions) :
    ((combinedPredictions predictions
        (Keyed.values (effectiveTaskUpdates predictions state))).filter fun prediction =>
        prediction.invocation ∈ requiredLocalPredictions predictions
          (effectiveTaskUpdates predictions state)
          (concurrentTaskPredictions predictions state)).Perm
      (newestConcurrent predictions state ++
        Keyed.values (effectiveTaskUpdates predictions state)) := by
  have hfaithful : Keyed.Faithful ActionPrediction.invocation
    (effectiveTaskUpdates predictions state) := faithful_effectiveTaskUpdates hpending
  have hkeys := Keyed.map_key_values hfaithful
  have hvalues : ∀ prediction ∈ Keyed.values (effectiveTaskUpdates predictions state),
      state.pendingPredictions.contains prediction.invocation = true := by
    intro prediction hmem
    rw [← @mem_keys_effectiveTaskUpdates predictions, ← hkeys, List.mem_toFinset]
    exact List.mem_map_of_mem hmem
  rw [combinedPredictions, Keyed.merge, Keyed.latest_of_nodup (Keyed.nodup_values hfaithful), hkeys,
    List.filter_append]
  refine List.Perm.append ?_ ?_
  · have hdisk : predictions.Nodup := hnodup.of_map _
    have hnewest : (newestConcurrent predictions state).Sublist predictions.reverse :=
      (List.take_sublist _ _).trans List.filter_sublist
    rw [List.perm_ext_iff_of_nodup ((hdisk.filter _).filter _)
      ((List.nodup_reverse.mpr hdisk).sublist hnewest)]
    intro prediction
    rw [List.mem_filter, List.mem_filter, decide_eq_true_eq, decide_eq_true_eq,
      mem_requiredLocalPredictions hnodup hcount, mem_keys_effectiveTaskUpdates]
    constructor
    · rintro ⟨⟨hmem, hown⟩, hrequired⟩
      obtain ⟨other, hother, heq⟩ := List.mem_map.mp (hrequired.resolve_left hown)
      obtain rfl := List.inj_on_of_nodup_map hnodup
        (List.mem_reverse.mp (hnewest.subset hother)) hmem heq
      exact hother
    · intro hmem
      have hconcurrent := (List.mem_filter.mp (List.mem_of_mem_take hmem)).2
      have hown := (of_decide_eq_true hconcurrent).1
      exact ⟨⟨List.mem_reverse.mp (hnewest.subset hmem), Bool.not_eq_true _ ▸ hown⟩,
        .inr (List.mem_map_of_mem hmem)⟩
  · rw [List.filter_eq_self.mpr]
    intro prediction hmem
    exact decide_eq_true ((mem_requiredLocalPredictions hnodup hcount _).mpr
      (.inl (hvalues prediction hmem)))

/-- The local merge succeeds just if the run's own predictions and the newest concurrent ones
are within the byte bound together. -/
theorem localMerge_ok_iff
    (hnodup : (predictions.map ActionPrediction.invocation).Nodup)
    (hpending : Keyed.Faithful ActionPrediction.invocation state.pendingPredictions)
    (hcount : state.pendingPredictions.size ≤ maxTaskActionPredictions) :
    (∃ kept, localMerge json predictions state = .ok kept) ↔
      manifestBytes json (newestConcurrent predictions state ++
        Keyed.values (effectiveTaskUpdates predictions state)) ≤ maxTaskManifestBytes := by
  have hcard := @card_guardConcurrent (concurrentTaskPredictions predictions state)
    (effectiveTaskUpdates predictions state).keys.toFinset predictions.reverse
    (by rwa [card_keys_effectiveTaskUpdates])
  have hperm := perm_filter_required hnodup hpending hcount
  have hbytes : manifestBytes json ((combinedPredictions predictions
      (Keyed.values (effectiveTaskUpdates predictions state))).filter fun prediction =>
        prediction.invocation ∈ requiredLocalPredictions predictions
          (effectiveTaskUpdates predictions state)
          (concurrentTaskPredictions predictions state)) =
      manifestBytes json (newestConcurrent predictions state ++
        Keyed.values (effectiveTaskUpdates predictions state)) := by
    rw [manifestBytes, (hperm.map _).sum_eq, manifestBytes]
  rw [← hbytes]
  exact updateTaskPredictionsInOrder_ok_iff hcard

private theorem mem_of_localMerge {kept : List ActionPrediction}
    (hnodup : (predictions.map ActionPrediction.invocation).Nodup)
    (hpending : Keyed.Faithful ActionPrediction.invocation state.pendingPredictions)
    (hcount : state.pendingPredictions.size ≤ maxTaskActionPredictions)
    (hok : localMerge json predictions state = .ok kept) :
    ∀ update ∈ Keyed.values (effectiveTaskUpdates predictions state), update ∈ kept := by
  intro update hmem
  have hperm := perm_filter_required hnodup hpending hcount
  obtain ⟨hcombined, hguarded⟩ :=
    List.mem_filter.mp (hperm.mem_iff.mpr (List.mem_append_right _ hmem))
  exact (updateTaskPredictionsInOrder_ok hok).2.1 update hcombined (of_decide_eq_true hguarded)

end Merge

/-- If a run's own predictions are within the bounds, the local merge succeeds and keeps them
just if they are within the byte bound together with the newest values that others wrote. -/
theorem localMerge_keeps_own_iff {json : Json} {task : String} {disk : Option TaskActionManifest}
    (hdisk : ∀ manifest, disk = some manifest → validateTaskManifest json manifest task = .ok ())
    {state : TaskActionState}
    (hpending : Keyed.Faithful ActionPrediction.invocation state.pendingPredictions)
    (hfits : FitsManifest json
      (Keyed.values (effectiveTaskUpdates (manifestPredictions disk) state))) :
    (∃ kept, localMerge json (manifestPredictions disk) state = .ok kept ∧
      ∀ update ∈ Keyed.values (effectiveTaskUpdates (manifestPredictions disk) state),
        update ∈ kept) ↔
      manifestBytes json (newestConcurrent (manifestPredictions disk) state ++
        Keyed.values (effectiveTaskUpdates (manifestPredictions disk) state)) ≤
          maxTaskManifestBytes := by
  have hnodup := (nodup_of_valid hdisk).1
  have hcount : state.pendingPredictions.size ≤ maxTaskActionPredictions := by
    have hlength := hfits.1
    rwa [Keyed.values, List.length_map, TreeMap.length_toList, effectiveTaskUpdates,
      TreeMap.size_map] at hlength
  rw [← localMerge_ok_iff hnodup hpending hcount]
  constructor
  · rintro ⟨kept, hok, -⟩
    exact ⟨kept, hok⟩
  · rintro ⟨kept, hok⟩
    exact ⟨kept, hok, mem_of_localMerge hnodup hpending hcount hok⟩

section Sample

/-- JSON in which a prediction takes some bytes more than its payload. -/
def payloadJson : Json :=
  ⟨fun _ => true, fun prediction => prediction.payload.utf8ByteSize + 256, id⟩

/-- A prediction with the largest payload, a JSON string. -/
def largePrediction (size : ℕ) : ActionPrediction :=
  ⟨⟨"blake3", sampleHash, size⟩, ⟨"blake3", sampleHash, size⟩, "rustc",
    "\"" ++ letters 262142 ++ "\""⟩

/-- Predictions of other runs. -/
def largeManifest (count : ℕ) : TaskActionManifest :=
  ⟨1, sampleHash, (List.range count).map largePrediction⟩

/-- A run that began before the manifest was there and recorded one prediction. -/
def largeState : TaskActionState :=
  (beginTask sampleHash none).record (largePrediction 59)

private theorem payload_largePrediction (size : ℕ) :
    (largePrediction size).payload.utf8ByteSize = 262144 := by
  have hquote : "\"".utf8ByteSize = 1 := by decide
  unfold largePrediction
  rw [String.utf8ByteSize_append, String.utf8ByteSize_append, utf8ByteSize_letters, hquote]

private theorem manifestBytes_large (sizes : List ℕ) :
    manifestBytes payloadJson (sizes.map largePrediction) = 256 + sizes.length * 262401 := by
  have hentry : ∀ size ∈ sizes, (entryBytes payloadJson ∘ largePrediction) size = 262401 :=
    fun size _ => congrArg (· + 256 + 1) (payload_largePrediction size)
  rw [manifestBytes, List.map_map, List.map_congr_left hentry, List.map_const', List.sum_replicate]
  rfl

private theorem validate_largePrediction (size : ℕ) :
    (largePrediction size).validate payloadJson = .ok () := by
  have haction : ¬(largePrediction size).action.isBlake3 = false := by
    simp [largePrediction, isBlake3_sampleHash]
  have hinvocation : ¬(largePrediction size).invocation.isBlake3 = false := by
    simp [largePrediction, isBlake3_sampleHash]
  have hadapter : ¬(largePrediction size).adapter = "" := by simp [largePrediction]
  have hname : ¬Protocol.validAdapterName (largePrediction size).adapter = false := by
    simp only [largePrediction]
    decide
  have hpayload : ¬Protocol.maxActionPredictionPayload <
      (largePrediction size).payload.utf8ByteSize := by
    rw [payload_largePrediction]
    decide
  have hviolation : (largePrediction size).constraintViolation payloadJson = none := by
    unfold ActionPrediction.constraintViolation
    rw [if_neg haction, if_neg hinvocation, if_neg hadapter, if_neg hname, if_neg hpayload,
      if_neg (by simp [payloadJson])]
  rw [ActionPrediction.validate, hviolation]

private theorem invocation_largePrediction_inj {size size' : ℕ}
    (heq : (largePrediction size).invocation = (largePrediction size').invocation) :
    size = size' := by
  simpa [largePrediction] using heq

private theorem pending_largeState :
    largeState.pendingPredictions =
      (∅ : TreeMap Digest ActionPrediction).insert (largePrediction 59).invocation
        (largePrediction 59) := rfl

private theorem changed_largeState :
    largeState.changedPredictions =
      (∅ : TreeMap Digest (Option ActionPrediction)).insert (largePrediction 59).invocation
        none := rfl

private theorem size_largeState : largeState.pendingPredictions.size = 1 := by
  rw [pending_largeState, TreeMap.size_insert]
  simp

private theorem faithful_largeState :
    Keyed.Faithful ActionPrediction.invocation largeState.pendingPredictions := by
  intro invocation prediction hfound
  rw [pending_largeState, TreeMap.getElem?_insert] at hfound
  split at hfound
  · rename_i heq
    cases hfound
    exact Std.LawfulEqCmp.compare_eq_iff_eq.mp heq
  · simp at hfound

private theorem values_largeState (predictions : List ActionPrediction) :
    Keyed.values (effectiveTaskUpdates predictions largeState) = [59].map largePrediction := by
  have hlength : (Keyed.values (effectiveTaskUpdates predictions largeState)).length = 1 := by
    rw [Keyed.values, List.length_map, TreeMap.length_toList, effectiveTaskUpdates,
      TreeMap.size_map, size_largeState]
  have hmem : largePrediction 59 ∈
      Keyed.values (effectiveTaskUpdates predictions largeState) := by
    refine Keyed.mem_values.mpr ⟨(largePrediction 59).invocation, ?_⟩
    rw [effectiveTaskUpdates, TreeMap.getElem?_map, pending_largeState, changed_largeState]
    simp
  obtain ⟨prediction, hsingle⟩ := List.length_eq_one_iff.mp hlength
  rw [hsingle] at hmem ⊢
  rw [← List.mem_singleton.mp hmem]
  rfl

private theorem newestConcurrent_large {count : ℕ} (hcount : count ≤ 59) :
    newestConcurrent (largeManifest count).predictions largeState =
      (List.range count).reverse.map largePrediction := by
  have hall : ∀ prediction ∈ (List.range count).reverse.map largePrediction,
      isConcurrent largeState prediction = true := by
    intro prediction hmem
    obtain ⟨size, hsize, rfl⟩ := List.mem_map.mp hmem
    have hne : (largePrediction 59).invocation ≠ (largePrediction size).invocation := by
      intro heq
      have h59 := invocation_largePrediction_inj heq
      rw [List.mem_reverse, List.mem_range] at hsize
      omega
    have hother : ¬compare (largePrediction 59).invocation (largePrediction size).invocation =
        .eq := fun heq => hne (Std.LawfulEqCmp.compare_eq_iff_eq.mp heq)
    have hpredictions : largeState.predictions = (∅ : TreeMap Digest ActionPrediction).insert
      (largePrediction 59).invocation (largePrediction 59) := rfl
    refine decide_eq_true ⟨?_, ?_⟩
    · rw [pending_largeState, TreeMap.contains_insert]
      simpa using hother
    · rw [TaskActionState.baseline, changed_largeState, TreeMap.getElem?_insert, if_neg hother,
        hpredictions]
      simp [hother]
  rw [newestConcurrent, largeManifest, ← List.map_reverse, List.filter_eq_self.mpr hall,
    List.take_of_length_le]
  rw [List.length_map, List.length_reverse, List.length_range, size_largeState]
  exact hcount.trans (by decide)

private theorem nodup_largeManifest (count : ℕ) :
    ((largeManifest count).predictions.map ActionPrediction.invocation).Nodup := by
  rw [largeManifest, List.map_map]
  exact List.nodup_range.map fun _ _ heq => invocation_largePrediction_inj heq

private theorem length_largeManifest {count : ℕ} (hcount : count ≤ 59) :
    (largeManifest count).predictions.length ≤ maxTaskActionPredictions := by
  rw [largeManifest, List.length_map, List.length_range]
  exact hcount.trans (by decide)

private theorem validate_largeManifest {count : ℕ} (hcount : count ≤ 59) :
    validateTaskManifest payloadJson (largeManifest count) sampleHash = .ok () := by
  refine if_pos ⟨rfl, decide_eq_true ⟨rfl, isHash_sampleHash, length_largeManifest hcount, ?_,
    nodup_largeManifest count⟩⟩
  intro prediction hmem
  obtain ⟨size, -, rfl⟩ := List.mem_map.mp hmem
  exact validate_largePrediction size

private theorem fitsManifest_largeState (predictions : List ActionPrediction) :
    FitsManifest payloadJson (Keyed.values (effectiveTaskUpdates predictions largeState)) := by
  have hbound : maxTaskManifestBytes = 15728640 := by decide
  rw [values_largeState]
  refine ⟨(by decide : 1 ≤ maxTaskActionPredictions), ?_⟩
  rw [manifestBytes_large, hbound]
  decide

/-- The values of other runs make a commit fail, although the manifest and the one prediction
of the run are each within the bounds. -/
theorem localMerge_refused_by_others :
    validateTaskManifest payloadJson (largeManifest 59) sampleHash = .ok () ∧
      FitsManifest payloadJson (largeManifest 59).predictions ∧
      Keyed.Faithful ActionPrediction.invocation largeState.pendingPredictions ∧
      FitsManifest payloadJson
        (Keyed.values (effectiveTaskUpdates (largeManifest 59).predictions largeState)) ∧
      ¬∃ kept, localMerge payloadJson (largeManifest 59).predictions largeState = .ok kept := by
  have hbound : maxTaskManifestBytes = 15728640 := by decide
  have hpending : largeState.pendingPredictions.size ≤ maxTaskActionPredictions := by
    rw [size_largeState]
    decide
  refine ⟨validate_largeManifest (Nat.le_refl _), ⟨length_largeManifest (Nat.le_refl _), ?_⟩,
    faithful_largeState, fitsManifest_largeState _, ?_⟩
  · rw [largeManifest, manifestBytes_large, List.length_range, hbound]
    decide
  · rw [localMerge_ok_iff (nodup_largeManifest 59) faithful_largeState hpending,
      newestConcurrent_large (Nat.le_refl _), values_largeState, ← List.map_append,
      manifestBytes_large, hbound]
    decide

/-- The same run commits next to one value of another run. -/
theorem localMerge_keeps_own_iff_small :
    ∃ kept, localMerge payloadJson (largeManifest 1).predictions largeState = .ok kept ∧
      ∀ update ∈ Keyed.values (effectiveTaskUpdates (largeManifest 1).predictions largeState),
        update ∈ kept := by
  have hbound : maxTaskManifestBytes = 15728640 := by decide
  have hdisk : ∀ manifest, some (largeManifest 1) = some manifest →
      validateTaskManifest payloadJson manifest sampleHash = .ok () := by
    rintro manifest ⟨⟩
    exact validate_largeManifest (by decide)
  refine (localMerge_keeps_own_iff hdisk faithful_largeState (fitsManifest_largeState _)).mpr ?_
  show manifestBytes payloadJson (newestConcurrent (largeManifest 1).predictions largeState ++
    Keyed.values (effectiveTaskUpdates (largeManifest 1).predictions largeState)) ≤ _
  rw [newestConcurrent_large (by decide), values_largeState, ← List.map_append,
    manifestBytes_large, hbound]
  decide

end Sample

end MrBoxington.TaskManifest
