import MrBoxington.TaskManifest.Commits

/-!
# The manifest holds what the last change committed

A run's three maps say exactly what it recorded last, and where that differs from
what it loaded. So a merge replaces just the values that the run changed. Since no
entry is ever lost within the bounds, a value that the run loaded is still on disk
in some version when it commits, and a run that only recorded it again keeps that
version.
-/

namespace MrBoxington.TaskManifest

open Protocol (Digest ActionPrediction TaskActionManifest Json maxTaskActionPredictions)
open Std (TreeMap)

variable {json : Json} {task : String}

/-- The prediction on disk for an invocation. -/
def diskValue (disk : Option TaskActionManifest) (invocation : Digest) :
    Option ActionPrediction :=
  Keyed.lookup ActionPrediction.invocation (manifestPredictions disk) invocation

/-- The maps of a run say what it did. -/
structure RunInv (json : Json) (state : TaskActionState) (history : RunHistory) : Prop where
  predictions : ∀ i : Digest,
    state.predictions[i]? = (history.lastRecorded i).or (history.loadedValue i)
  pending : ∀ i : Digest, state.pendingPredictions[i]? = history.lastRecorded i
  changed : ∀ i : Digest, state.changedPredictions[i]? =
    if state.predictions[i]? = history.loadedValue i then none else some (history.loadedValue i)
  valid : ∀ prediction ∈ history.recorded, prediction.validate json = .ok ()

private theorem RunInv.default : RunInv json .default .empty where
  predictions _ := rfl
  pending _ := rfl
  changed _ := rfl
  valid _ hmem := absurd hmem List.not_mem_nil

private theorem RunInv.begin {disk : Option TaskActionManifest}
    (hnodup : ((manifestPredictions disk).map ActionPrediction.invocation).Nodup) :
    RunInv json (beginTask task disk) ⟨disk, []⟩ where
  predictions i := Keyed.getElem?_index_of_nodup hnodup
  pending _ := rfl
  changed i := by
    rw [if_pos]
    · rfl
    · exact Keyed.getElem?_index_of_nodup hnodup
  valid _ hmem := absurd hmem List.not_mem_nil

private theorem RunHistory.lastRecorded_record {history : RunHistory}
    {prediction : ActionPrediction}
    {i : Digest} :
    (history.record prediction).lastRecorded i =
      if prediction.invocation = i then some prediction else history.lastRecorded i :=
  Keyed.lookup_cons

private theorem TaskActionState.changes_of_ne {state : TaskActionState}
    {prediction : ActionPrediction}
    {i : Digest} (hne : prediction.invocation ≠ i) :
    (state.changes prediction)[i]? = state.changedPredictions[i]? := by
  unfold TaskActionState.changes
  dsimp only
  split
  · rfl
  · split
    · split
      · simp [TreeMap.getElem?_erase, hne]
      · rfl
    · simp [TreeMap.getElem?_insert, hne]

private theorem RunInv.changes_self {state : TaskActionState} {history : RunHistory}
    {prediction : ActionPrediction} (hinv : RunInv json state history) :
    (state.changes prediction)[prediction.invocation]? =
      if some prediction = history.loadedValue prediction.invocation then none
      else some (history.loadedValue prediction.invocation) := by
  have hchanged := hinv.changed prediction.invocation
  unfold TaskActionState.changes
  dsimp only
  split
  · rename_i hsame
    rw [hchanged, hsame]
  · rename_i hdiffers
    split
    · rename_i baseline hbaseline
      -- An earlier record noted the loaded value.
      rw [hchanged] at hbaseline
      split at hbaseline
      · exact absurd hbaseline.symm (Option.some_ne_none _)
      · rw [Option.some.inj hbaseline]
        split
        · rename_i hback
          simp [hback]
        · rename_i hother
          rw [if_neg (Ne.symm hother), hchanged, if_neg (by assumption), Option.some.inj hbaseline]
    · rename_i hnone
      -- The run still saw the loaded value.
      rw [hchanged] at hnone
      split at hnone
      · rename_i hloaded
        rw [TreeMap.getElem?_insert_self, ← hloaded, if_neg (Ne.symm hdiffers)]
      · exact absurd hnone (Option.some_ne_none _)

private theorem RunInv.record {state state' : TaskActionState} {history : RunHistory}
    {prediction : ActionPrediction} (hinv : RunInv json state history)
    (hrecord : recordActionPrediction json state prediction = .ok state') :
    RunInv json state' (history.record prediction) ∧ state'.manifest = state.manifest ∧
      state'.baselineLoaded = state.baselineLoaded := by
  unfold recordActionPrediction at hrecord
  split at hrecord
  · cases hrecord
  · rename_i hvalid
    split at hrecord
    · cases hrecord
    · cases hrecord
      refine ⟨⟨fun i => ?_, fun i => ?_, fun i => ?_, ?_⟩, rfl, rfl⟩
      · rw [RunHistory.lastRecorded_record]
        simp only [TaskActionState.record, TreeMap.getElem?_insert,
          Std.LawfulEqCmp.compare_eq_iff_eq, hinv.predictions i]
        split <;> rfl
      · rw [RunHistory.lastRecorded_record]
        simp only [TaskActionState.record, TreeMap.getElem?_insert,
          Std.LawfulEqCmp.compare_eq_iff_eq, hinv.pending i]
      · simp only [TaskActionState.record, TreeMap.getElem?_insert,
          Std.LawfulEqCmp.compare_eq_iff_eq]
        by_cases hi : prediction.invocation = i
        · subst hi
          rw [if_pos rfl]
          exact hinv.changes_self
        · rw [if_neg hi, TaskActionState.changes_of_ne hi]
          exact hinv.changed i
      · intro other hmem
        rcases List.mem_cons.mp hmem with rfl | hrest
        · exact hvalid
        · exact hinv.valid other hrest

/-- A valid manifest predicts each invocation once. -/
theorem nodup_of_valid {disk : Option TaskActionManifest}
    (hdisk : ∀ manifest, disk = some manifest → validateTaskManifest json manifest task = .ok ()) :
    ((manifestPredictions disk).map ActionPrediction.invocation).Nodup ∧
      ∀ prediction ∈ manifestPredictions disk, prediction.validate json = .ok () := by
  cases disk with
  | none => exact ⟨List.nodup_nil, fun _ hmem => absurd hmem List.not_mem_nil⟩
  | some manifest =>
    have hvalid := hdisk manifest rfl
    unfold validateTaskManifest at hvalid
    split at hvalid
    · rename_i hchecks
      have hmanifest := of_decide_eq_true hchecks.2
      exact ⟨hmanifest.2.2.2.2, hmanifest.2.2.2.1⟩
    · cases hvalid

section Merge

variable {disk : Option TaskActionManifest} {state : TaskActionState} {history : RunHistory}

private theorem RunHistory.invocation_of_lastRecorded {i : Digest} {prediction : ActionPrediction}
    (hlast : history.lastRecorded i = some prediction) : prediction.invocation = i :=
  Keyed.key_of_lookup hlast

private theorem RunInv.getElem?_effective (hinv : RunInv json state history)
    (hnodup : ((manifestPredictions disk).map ActionPrediction.invocation).Nodup) (i : Digest) :
    (effectiveTaskUpdates (manifestPredictions disk) state)[i]? =
      (history.lastRecorded i).map fun update =>
        if (history.changedValue i).isSome then update else (diskValue disk i).getD update := by
  have hchanged : ∀ update, history.lastRecorded i = some update →
      state.changedPredictions.contains i = (history.changedValue i).isSome := by
    intro update hlast
    have hview := hinv.predictions i
    rw [hlast, Option.some_or] at hview
    rw [TreeMap.contains_eq_isSome_getElem?, hinv.changed i, hview]
    unfold RunHistory.changedValue
    rw [hlast]
    split <;> rfl
  unfold effectiveTaskUpdates
  rw [TreeMap.getElem?_map, hinv.pending i, Keyed.getElem?_index_of_nodup hnodup]
  cases hlast : history.lastRecorded i with
  | none => rfl
  | some update =>
    rw [Option.map_some, Option.map_some, hchanged update hlast]
    rfl

private theorem RunInv.faithful_effective (hinv : RunInv json state history)
    (hnodup : ((manifestPredictions disk).map ActionPrediction.invocation).Nodup) :
    Keyed.Faithful ActionPrediction.invocation
      (effectiveTaskUpdates (manifestPredictions disk) state) := by
  intro i prediction hfound
  rw [hinv.getElem?_effective hnodup, Option.map_eq_some_iff] at hfound
  obtain ⟨update, hlast, rfl⟩ := hfound
  have hupdate := RunHistory.invocation_of_lastRecorded hlast
  split
  · exact hupdate
  · cases hdisk : diskValue disk i with
    | none => exact hupdate
    | some current => exact Keyed.key_of_lookup hdisk

private theorem RunInv.valid_effective (hinv : RunInv json state history)
    (hnodup : ((manifestPredictions disk).map ActionPrediction.invocation).Nodup)
    (hvalid : ∀ prediction ∈ manifestPredictions disk, prediction.validate json = .ok ()) :
    ∀ prediction ∈ Keyed.values (effectiveTaskUpdates (manifestPredictions disk) state),
      prediction.validate json = .ok () := by
  intro prediction hmem
  obtain ⟨i, hfound⟩ := Keyed.mem_values.mp hmem
  rw [hinv.getElem?_effective hnodup, Option.map_eq_some_iff] at hfound
  obtain ⟨update, hlast, rfl⟩ := hfound
  have hupdate := hinv.valid update (Keyed.mem_of_lookup hlast)
  split
  · exact hupdate
  · cases hdisk : diskValue disk i with
    | none => exact hupdate
    | some current => exact hvalid current (Keyed.mem_of_lookup hdisk)

/-- After the merge an invocation has the value that the run changed it to, or else
its value on disk, as long as no loaded entry was lost in between. -/
theorem RunInv.lookup_combined (hinv : RunInv json state history)
    (hnodup : ((manifestPredictions disk).map ActionPrediction.invocation).Nodup)
    (hkept : ∀ i, history.loadedValue i ≠ none → diskValue disk i ≠ none) (i : Digest) :
    Keyed.lookup ActionPrediction.invocation
        (combinedPredictions (manifestPredictions disk)
          (Keyed.values (effectiveTaskUpdates (manifestPredictions disk) state))) i =
      (history.changedValue i).or (diskValue disk i) := by
  have hfaithful := hinv.faithful_effective hnodup
  unfold combinedPredictions
  rw [Keyed.lookup_merge,
    Keyed.lookup_perm (List.reverse_perm _)
      (by rw [List.map_reverse, List.nodup_reverse]; exact Keyed.nodup_values hfaithful),
    Keyed.lookup_values hfaithful, hinv.getElem?_effective hnodup]
  change _ = (history.changedValue i).or (Keyed.lookup _ _ i)
  cases hlast : history.lastRecorded i with
  | none =>
    have hunchanged : history.changedValue i = none := by
      unfold RunHistory.changedValue
      rw [hlast, ite_self]
    rw [hunchanged]
    rfl
  | some update =>
    unfold RunHistory.changedValue
    rw [hlast]
    by_cases hsame : some update = history.loadedValue i
    · -- Recorded again: the version on disk stays.
      obtain ⟨current, hcurrent⟩ := Option.ne_none_iff_exists'.mp (hkept i (by simp [← hsame]))
      have hlookup : Keyed.lookup ActionPrediction.invocation (manifestPredictions disk) i =
        some current := hcurrent
      rw [if_pos hsame, hlookup, Option.map_some, hcurrent]
      rfl
    · rw [if_neg hsame]
      rfl

/-- The guarded invocations stay within the maximum. -/
theorem card_guardConcurrent {concurrentUpdates : TreeMap Digest ActionPrediction}
    {required : Finset Digest} {predictions : List ActionPrediction}
    (hcard : required.card ≤ maxTaskActionPredictions) :
    (guardConcurrent concurrentUpdates required predictions).card ≤ maxTaskActionPredictions := by
  induction predictions generalizing required with
  | nil => exact hcard
  | cons prediction rest ih =>
    unfold guardConcurrent
    split
    · exact hcard
    · split
      · refine ih (Nat.le_trans (Finset.card_insert_le _ _) ?_)
        omega
      · exact ih hcard

private theorem RunInv.commitTaskActions_of_fits (hinv : RunInv json state history)
    (hdisk : ∀ manifest, disk = some manifest → validateTaskManifest json manifest task = .ok ())
    (hstate : state.manifest = task) (htask : Protocol.validTaskIdentity task)
    (hfits : FitsManifest json (combinedPredictions (manifestPredictions disk)
      (Keyed.values (effectiveTaskUpdates (manifestPredictions disk) state)))) :
    ∃ manifest, commitTaskActions json disk state = .ok manifest ∧
      validateTaskManifest json manifest task = .ok () ∧
      manifest.predictions = combinedPredictions (manifestPredictions disk)
        (Keyed.values (effectiveTaskUpdates (manifestPredictions disk) state)) := by
  subst hstate
  obtain ⟨hnodup, hvalid⟩ := nodup_of_valid hdisk
  have hfaithful := hinv.faithful_effective hnodup
  have hvalues := Keyed.nodup_values hfaithful
  set updates := effectiveTaskUpdates (manifestPredictions disk) state with hupdates
  have hrequired : (requiredLocalPredictions (manifestPredictions disk) updates
      (concurrentTaskPredictions (manifestPredictions disk) state)).card ≤
        maxTaskActionPredictions := by
    refine card_guardConcurrent (Nat.le_trans (List.toFinset_card_le _) ?_)
    refine Nat.le_trans ?_ hfits.1
    unfold combinedPredictions Keyed.merge
    rw [Keyed.latest_of_nodup hvalues, TreeMap.length_keys, List.length_append, Keyed.values,
      List.length_map, TreeMap.length_toList]
    exact Nat.le_add_left _ _
  have hchecked : validateTaskManifest json
      ⟨taskActionManifestVersion, state.manifest,
        combinedPredictions (manifestPredictions disk) (Keyed.values updates)⟩ state.manifest
      = .ok () := by
    unfold validateTaskManifest
    refine if_pos ⟨rfl, decide_eq_true ⟨rfl, htask, hfits.1, ?_, ?_⟩⟩
    · intro prediction hmem
      rcases Keyed.mem_of_mem_merge hmem with hold | hnew
      · exact hvalid prediction hold
      · exact hinv.valid_effective hnodup hvalid prediction hnew
    · exact Keyed.nodup_merge hnodup
  refine ⟨_, ?_, hchecked, rfl⟩
  unfold commitTaskActions updateTaskPredictions
  dsimp only
  rw [← hupdates, updateTaskPredictionsInOrder_of_fits hrequired hfits]
  dsimp only
  rw [hchecked]

end Merge

private theorem RunInv.changedValue_of_hitOnly {state : TaskActionState} {history : RunHistory}
    (hinv : RunInv json state history) (hhits : state.hitOnly) (i : Digest) :
    history.changedValue i = none := by
  have hempty : state.changedPredictions.isEmpty = true := (of_decide_eq_true hhits).1
  have hnone : state.changedPredictions[i]? = none := TreeMap.getElem?_of_isEmpty hempty
  rw [hinv.changed i, hinv.predictions i] at hnone
  unfold RunHistory.changedValue
  cases hlast : history.lastRecorded i with
  | none => rw [ite_self]
  | some update =>
    rw [hlast, Option.some_or] at hnone
    split at hnone
    · rename_i hsame
      rw [if_pos hsame]
    · exact absurd hnone (Option.some_ne_none _)

private theorem committedValue_cons {initial : Option TaskActionManifest}
    {commits : List RunHistory}
    {history : RunHistory} {i : Digest} :
    committedValue initial (history :: commits) i =
      (history.changedValue i).or (committedValue initial commits i) := by
  unfold committedValue
  rw [List.findSome?_cons]
  cases history.changedValue i <;> rfl

/-- The state of a run says what it did, and what it loaded is still on disk. -/
structure Follows (json : Json) (task : String) (disk : Option TaskActionManifest)
    (state : TaskActionState) (history : RunHistory) : Prop where
  run : RunInv json state history
  kept : ∀ i, history.loadedValue i ≠ none → diskValue disk i ≠ none
  begun : state.baselineLoaded → state.manifest = task ∧ Protocol.validTaskIdentity task

/-- What holds in every state. -/
structure TaskInv {ρ κ : Type} (json : Json) (task : String)
    (initial : Option TaskActionManifest) (s : TaskState ρ κ) : Prop where
  valid : ∀ manifest, s.disk = some manifest → validateTaskManifest json manifest task = .ok ()
  value : ∀ i, diskValue s.disk i = committedValue initial s.commits i
  run : ∀ run, Follows json task s.disk ((s.runs run).getD .default) (s.history run)
  committing : ∀ commit pending, s.committing commit = some pending →
    Follows json task s.disk pending.state pending.history ∧ pending.state.baselineLoaded

private theorem Follows.mono {disk disk' : Option TaskActionManifest} {state : TaskActionState}
    {history : RunHistory} (hfollows : Follows json task disk state history)
    (hgrown : ∀ i, diskValue disk i ≠ none → diskValue disk' i ≠ none) :
    Follows json task disk' state history :=
  ⟨hfollows.run, fun i hloaded => hgrown i (hfollows.kept i hloaded), hfollows.begun⟩

private theorem Follows.default {disk : Option TaskActionManifest} :
    Follows json task disk .default .empty :=
  ⟨.default, fun _ hloaded => absurd rfl hloaded, fun hbegun => absurd hbegun (by decide)⟩

variable {ρ κ : Type} {initial : Option TaskActionManifest} {s t : TaskState ρ κ}

private theorem TaskInv.of_initial (hinitial : s.Initial json task initial) :
    TaskInv json task initial s where
  valid := hinitial.disk ▸ hinitial.valid
  value i := by
    rw [hinitial.disk, hinitial.commits]
    rfl
  run run := by
    rw [hinitial.runs run, hinitial.history run]
    exact .default
  committing commit pending hpending :=
    absurd ((hinitial.committing commit).symm.trans hpending) (Option.some_ne_none _).symm

private theorem TaskInv.committed (hinv : TaskInv json task initial s)
    {disk : Option TaskActionManifest} {history : RunHistory}
    (hvalid : ∀ manifest, disk = some manifest → validateTaskManifest json manifest task = .ok ())
    (hvalue : ∀ i, diskValue disk i = (history.changedValue i).or (diskValue s.disk i)) :
    TaskInv json task initial (s.committed disk history) := by
  have hgrown : ∀ i, diskValue s.disk i ≠ none → diskValue disk i ≠ none := by
    intro i hpresent
    rw [hvalue i]
    intro hnone
    exact hpresent (Option.or_eq_none_iff.mp hnone).2
  refine ⟨hvalid, fun i => ?_, fun run => (hinv.run run).mono hgrown, fun commit pending h => ?_⟩
  · change diskValue disk i = committedValue initial (history :: s.commits) i
    rw [committedValue_cons, hvalue i, hinv.value i]
  · obtain ⟨hfollows, hbegun⟩ := hinv.committing commit pending h
    exact ⟨hfollows.mono hgrown, hbegun⟩

private theorem TaskInv.dropCommit [DecidableEq κ] (hinv : TaskInv json task initial s)
    {commit : κ} :
    TaskInv json task initial (s.setCommit commit none) where
  valid := hinv.valid
  value := hinv.value
  run := hinv.run
  committing other pending hpending := by
    by_cases hother : other = commit
    · subst hother
      simp [TaskState.setCommit] at hpending
    · exact hinv.committing other pending
        (by simpa [TaskState.setCommit, Function.update_of_ne hother] using hpending)

variable [DecidableEq ρ]

private theorem TaskInv.setRun (hinv : TaskInv json task initial s) {run : ρ}
    {state : Option TaskActionState} {history : RunHistory}
    (hfollows : Follows json task s.disk (state.getD .default) history) :
    TaskInv json task initial (s.setRun run state history) where
  valid := hinv.valid
  value := hinv.value
  run other := by
    by_cases hother : other = run
    · subst hother
      simpa [TaskState.setRun] using hfollows
    · simpa [TaskState.setRun, Function.update_of_ne hother] using hinv.run other
  committing := hinv.committing

variable [DecidableEq κ]

private theorem TaskInv.step (hinv : TaskInv json task initial s)
    (hstep : BoundedTaskStep json task s t) : TaskInv json task initial t := by
  obtain ⟨event, hstep, hfits⟩ := hstep
  cases hstep with
  | begin run htask =>
    refine hinv.setRun ⟨.begin (nodup_of_valid hinv.valid).1, fun i hloaded => hloaded, ?_⟩
    exact fun _ => ⟨rfl, htask⟩
  | record run hrecord =>
    have hfollows := hinv.run run
    obtain ⟨hrun, hmanifest, hbaseline⟩ := hfollows.run.record hrecord
    refine hinv.setRun ⟨hrun, hfollows.kept, fun hbegun => ?_⟩
    rw [Option.getD_some, hmanifest]
    exact hfollows.begun (hbaseline ▸ hbegun)
  | commitHits run hrun hloaded hhits =>
    have hfollows := hinv.run run
    rw [hrun, Option.getD_some] at hfollows
    refine (hinv.setRun .default).committed hinv.valid fun i => ?_
    rw [hfollows.run.changedValue_of_hitOnly hhits i, Option.none_or]
    rfl
  | snapshot run commit hrun hloaded hhits hfree =>
    have hfollows := hinv.run run
    rw [hrun, Option.getD_some] at hfollows
    refine ⟨hinv.valid, hinv.value, hinv.run, fun other pending hpending => ?_⟩
    by_cases hother : other = commit
    · subst hother
      simp only [TaskState.setCommit, Function.update_self, Option.some.injEq] at hpending
      subst hpending
      exact ⟨hfollows, hloaded⟩
    · exact hinv.committing other pending
        (by simpa [TaskState.setCommit, Function.update_of_ne hother] using hpending)
  | merge commit hpending hmerge =>
    obtain ⟨hfollows, hbegun⟩ := hinv.committing commit _ hpending
    obtain ⟨hstate, htask⟩ := hfollows.begun hbegun
    obtain ⟨manifest, hmerged, hvalid, hpredictions⟩ :=
      hfollows.run.commitTaskActions_of_fits hinv.valid hstate htask
        (hfits commit rfl _ hpending)
    cases hmerge.symm.trans hmerged
    refine (hinv.dropCommit.setRun .default).committed ?_ fun i => ?_
    · intro other hother
      rw [← Option.some.inj hother]
      exact hvalid
    · have hlookup :=
        hfollows.run.lookup_combined (nodup_of_valid hinv.valid).1 hfollows.kept i
      rw [← hpredictions] at hlookup
      exact hlookup
  | mergeFailed commit hpending hmerge => exact hinv.dropCommit
  | abandon run => exact hinv.setRun .default
  | abandonCommit commit => exact hinv.dropCommit

section Sample

end Sample

end MrBoxington.TaskManifest
