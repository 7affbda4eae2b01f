import MrBoxington.Lib.MemoRecheck
import MrBoxington.Store.Collected

/-!
# A dry run and a real one

A dry run removes nothing and remembers what it would have removed. Where every removal
succeeds, a real collection of the store without what a dry run counts as gone reports
what the dry run reports, provided that both protect the same objects. Directory objects
may be malformed: nothing here assumes that no directory lies below itself.
-/

namespace MrBoxington.Store

open Protocol (Bytes Digest ActionResult RecordJson)

variable {json : RecordJson} {held : Path → Bool} {objects kept : FileTree}
  {virtuallyRemoved rooted rooted' : Finset Path} {maxBytes liveBytes : ℕ}
  {outcome : ObjectEvictions} {entries : List StoredFile} {trees : MemoCheck.Memo Digest}

/-! ## Evicting -/

private theorem evictObjects_removed {σ : Type*} {removeFile : σ → Path → Removal × σ}
    (there : σ → List StoredFile → Prop)
    (hstep : ∀ state entry rest, there state (entry :: rest) →
      (removeFile state entry.path).1 = .removed ∧ there (removeFile state entry.path).2 rest)
    {state : σ} (hthere : there state entries) :
    evictObjects rooted maxBytes removeFile entries liveBytes false outcome state =
      (⟨outcome.removedObjects + (doomed maxBytes liveBytes entries).length,
        outcome.removedBytes + ((doomed maxBytes liveBytes entries).map StoredFile.size).sum,
        liveBytes - ((doomed maxBytes liveBytes entries).map StoredFile.size).sum⟩,
        (doomed maxBytes liveBytes entries).foldl
          (fun state entry => (removeFile state entry.path).2) state) := by
  induction entries generalizing liveBytes outcome state with
  | nil => simp [evictObjects, doomed]
  | cons entry rest ih =>
    unfold evictObjects doomed
    by_cases hfits : liveBytes ≤ maxBytes
    · simp [hfits]
    obtain ⟨hremoved, hrest⟩ := hstep state entry rest hthere
    rw [if_neg (by simp [hfits]), if_neg hfits]
    have hpair : removeFile state entry.path = (.removed, (removeFile state entry.path).2) :=
      Prod.ext hremoved rfl
    rw [hpair]
    dsimp only
    rw [ih hrest, List.length_cons, List.map_cons, List.sum_cons, List.foldl_cons, Nat.sub_sub,
      Nat.add_assoc, Nat.add_assoc, Nat.add_comm 1]

private theorem evictionOrder_congr {files : List StoredFile}
    (hrooted : ∀ file ∈ files, file.path ∈ rooted ↔ file.path ∈ rooted') :
    evictionOrder rooted files = evictionOrder rooted' files := by
  have hsame := List.map_insertionSort (EvictedBefore rooted) (EvictedBefore rooted') id files (by
    intro left hleft right hright
    unfold EvictedBefore
    rw [hrooted left hleft, hrooted right hright]
    rfl)
  rwa [List.map_id, List.map_id] at hsame

/-! ## Results without their objects -/

/-- A tree is what is left of the objects without those that count as gone. -/
structure LeftOver (objects : FileTree) (virtuallyRemoved : Finset Path) (kept : FileTree) :
    Prop where
  read : ∀ path, kept.read path = if path ∈ virtuallyRemoved then none else objects.read path
  length_le : kept.files.length ≤ objects.files.length

private theorem LeftOver.missing_eq (hleft : LeftOver objects virtuallyRemoved kept) :
    missing objects virtuallyRemoved = missing kept ∅ := by
  funext digest
  unfold missing
  cases objectPath digest with
  | none => rfl
  | some path =>
    dsimp only
    rw [hleft.read]
    by_cases hgone : path ∈ virtuallyRemoved <;> simp [hgone]

private theorem LeftOver.names_eq (json : RecordJson)
    (hleft : LeftOver objects virtuallyRemoved kept)
    {digest : Digest} (hpresent : missing kept ∅ digest = false) :
    subdirectories json objects.read digest = subdirectories json kept.read digest ∧
      fileDigests json objects.read digest = fileDigests json kept.read digest := by
  apply names_congr
  rw [← hleft.missing_eq] at hpresent
  unfold missing at hpresent
  unfold readObject
  cases hpath : objectPath digest with
  | none => rfl
  | some path =>
    rw [hpath] at hpresent
    simp only [Bool.or_eq_false_iff, decide_eq_false_iff_not] at hpresent
    rw [Option.bind_some, Option.bind_some, hleft.read, if_neg hpresent.1]

/-- The directories that are objects. -/
private def objectDigests (tree : FileTree) : Finset Digest :=
  (tree.files.filterMap fun file => digestFromPath file.path).toFinset

private theorem objectDigests_card (tree : FileTree) :
    (objectDigests tree).card < tree.files.length + 1 :=
  Nat.lt_succ_of_le (Nat.le_trans (List.toFinset_card_le _) (List.length_filterMap_le _ _))

private theorem unseen_objectDigests (tree : FileTree) (trees : MemoCheck.Memo Digest) :
    MemoCheck.unseen (objectDigests tree) trees < tree.files.length + 1 :=
  Nat.lt_of_le_of_lt (Finset.card_filter_le _ _) (objectDigests_card tree)

private theorem mem_objectDigests {digest : Digest}
    (hchildren : subdirectories json kept.read digest ≠ []) : digest ∈ objectDigests kept := by
  cases hpath : objectPath digest with
  | none => simp [subdirectories, readDirectory, readObject, hpath] at hchildren
  | some path =>
    cases hread : kept.read path with
    | none => simp [subdirectories, readDirectory, readObject, hpath, hread] at hchildren
    | some bytes =>
      obtain ⟨file, hfile, rfl, -⟩ := FileTree.exists_of_read hread
      rw [objectDigests, List.mem_toFinset, List.mem_filterMap]
      exact ⟨file, hfile, digestFromPath_objectPath hpath⟩

private theorem LeftOver.treeIsComplete_eq (hleft : LeftOver objects virtuallyRemoved kept)
    {root : Digest} (hroot : missing kept ∅ root = false) :
    treeIsComplete json objects virtuallyRemoved trees root =
      treeIsComplete json kept ∅ trees root := by
  unfold treeIsComplete
  rw [hleft.missing_eq]
  have hunseen := unseen_objectDigests kept trees
  refine MemoCheck.check_agree (fun digest => missing kept ∅ digest = false)
    (objectDigests kept) ?_ ?_ ?_ hroot ?_ hunseen
  · intro child hchild
    simpa using hchild
  · intro directory hdirectory
    obtain ⟨hdirectories, hfiles⟩ := hleft.names_eq json hdirectory
    exact ⟨by rw [hfiles], hdirectories⟩
  · intro directory hdirectory hchildren
    rw [(hleft.names_eq json hdirectory).1] at hchildren
    exact mem_objectDigests hchildren
  · exact Nat.lt_of_lt_of_le hunseen (Nat.add_le_add_right hleft.length_le 1)

private theorem LeftOver.dangling_eq (hleft : LeftOver objects virtuallyRemoved kept)
    (bytes : Bytes)
    (walkTree : Bool) (trees : MemoCheck.Memo Digest) :
    actionResultBytesAreDangling json objects virtuallyRemoved bytes walkTree trees =
      actionResultBytesAreDangling json kept ∅ bytes walkTree trees := by
  unfold actionResultBytesAreDangling
  cases json.actionResult bytes with
  | none => rfl
  | some result =>
    dsimp only
    rw [hleft.missing_eq]
    cases hnamed : [some result.action, result.metadata, result.outputRoot].reduceOption.any
        (missing kept ∅) with
    | true => rfl
    | false =>
      cases walkTree with
      | false => rfl
      | true =>
        cases hroot : result.outputRoot with
        | none => rfl
        | some root =>
          have hpresent : missing kept ∅ root = false := by
            rw [List.any_eq_false] at hnamed
            exact Bool.eq_false_iff.mpr (hnamed root (by
              rw [List.reduceOption_mem_iff, hroot]
              simp))
          simp only [Bool.false_eq_true, if_false, hleft.treeIsComplete_eq hpresent]

/-- Trees remembered as incomplete are. -/
def FailedTrees (json : RecordJson) (kept : FileTree) (trees : MemoCheck.Memo Digest) : Prop :=
  MemoCheck.FailuresSound
    (fun directory => (fileDigests json kept.read directory).all fun file => !missing kept ∅ file)
    (fun child => !missing kept ∅ child) (subdirectories json kept.read) trees

private theorem dangling_again (hsound : FailedTrees json kept trees) (bytes : Bytes)
    (walkTree : Bool) :
    ((actionResultBytesAreDangling json kept ∅ bytes walkTree trees).1 = true →
        (actionResultBytesAreDangling json kept ∅ bytes walkTree fun _ => none).1 = true) ∧
      FailedTrees json kept (actionResultBytesAreDangling json kept ∅ bytes walkTree trees).2 := by
  unfold actionResultBytesAreDangling
  cases json.actionResult bytes with
  | none => exact ⟨id, hsound⟩
  | some result =>
    dsimp only
    split
    · exact ⟨id, hsound⟩
    · cases walkTree with
      | false => exact ⟨id, hsound⟩
      | true =>
        cases result.outputRoot with
        | none => exact ⟨id, hsound⟩
        | some root =>
          refine ⟨fun hdangles => ?_, (MemoCheck.check_fails _ root hsound).2⟩
          simp only [Bool.not_eq_true'] at hdangles ⊢
          exact MemoCheck.check_fails_again hsound (fun _ => mem_objectDigests)
            (objectDigests_card kept) hdangles

/-! ## The pass over the results -/

/-- A dry pass and a real one stand alike before the results that are still to come. -/
structure Alike (json : RecordJson) (kept : FileTree) (entries : List StoredFile)
    (dry real : ResultPass) : Prop where
  trees : dry.trees = real.trees
  liveBytes : dry.liveBytes = real.liveBytes
  removedActionResults : dry.removedActionResults = real.removedActionResults
  removedBytes : dry.removedBytes = real.removedBytes
  inDry : ∀ entry ∈ entries, entry ∈ dry.results.files
  inReal : ∀ entry ∈ entries, entry ∈ real.results.files
  sound : FailedTrees json kept real.trees

private theorem Alike.step (hfree : ∀ path, held path = false)
    (hleft : LeftOver objects virtuallyRemoved kept) {walkTrees : Bool} {entry : StoredFile}
    {dry real : ResultPass} (hnew : entry.path ∉ entries.map StoredFile.path)
    (halike : Alike json kept (entry :: entries) dry real) :
    Alike json kept entries
      (dropDangling json held true objects virtuallyRemoved walkTrees dry entry)
      (dropDangling json held false kept ∅ walkTrees real entry) := by
  obtain ⟨htrees, hlive, hcount, hbytes, hinDry, hinReal, hsound⟩ := halike
  have hdryRead := FileTree.read_of_mem (hinDry entry List.mem_cons_self)
  have hrealRead := FileTree.read_of_mem (hinReal entry List.mem_cons_self)
  obtain ⟨hagain, hafter⟩ := dangling_again hsound entry.bytes walkTrees
  have hdry : actionResultIsDangling json objects virtuallyRemoved dry.results entry.path walkTrees
      dry.trees = actionResultBytesAreDangling json kept ∅ entry.bytes walkTrees real.trees := by
    rw [actionResultIsDangling, hdryRead, htrees]
    exact hleft.dangling_eq entry.bytes walkTrees real.trees
  have hreal : actionResultIsDangling json kept ∅ real.results entry.path walkTrees real.trees =
      actionResultBytesAreDangling json kept ∅ entry.bytes walkTrees real.trees := by
    rw [actionResultIsDangling, hrealRead]
  have hclaim (hdangles : (actionResultBytesAreDangling json kept ∅ entry.bytes walkTrees
      fun _ => none).1 = true) :
      claimAndRemove json held kept ∅ walkTrees real.results entry.path =
        some (.removed, real.results.erase entry.path) := by
    simp [claimAndRemove, remove, hfree, hrealRead, hdangles]
  unfold dropDangling
  rw [hdry, hreal]
  generalize hverdict : actionResultBytesAreDangling json kept ∅ entry.bytes walkTrees
    real.trees = verdict at hagain hafter
  obtain ⟨dangles, trees'⟩ := verdict
  cases dangles with
  | false =>
    exact ⟨rfl, hlive, hcount, hbytes, fun e he => hinDry e (List.mem_cons_of_mem _ he),
      fun e he => hinReal e (List.mem_cons_of_mem _ he), hafter⟩
  | true =>
    simp only [if_true, Bool.false_eq_true, if_false, hclaim (hagain rfl)]
    refine ⟨rfl, by rw [hlive], by rw [hcount], by rw [hbytes],
      fun e he => hinDry e (List.mem_cons_of_mem _ he), fun e he => ?_, hafter⟩
    rw [FileTree.mem_erase]
    exact ⟨hinReal e (List.mem_cons_of_mem _ he), fun heq =>
      hnew (heq ▸ List.mem_map_of_mem he)⟩

private theorem Alike.run (hfree : ∀ path, held path = false)
    (hleft : LeftOver objects virtuallyRemoved kept) {walkTrees : Bool} {dry real : ResultPass}
    (hdistinct : (entries.map StoredFile.path).Nodup) (halike : Alike json kept entries dry real) :
    Alike json kept []
      (entries.foldl (dropDangling json held true objects virtuallyRemoved walkTrees) dry)
      (entries.foldl (dropDangling json held false kept ∅ walkTrees) real) := by
  induction entries generalizing dry real with
  | nil => exact halike
  | cons entry rest ih =>
    rw [List.map_cons, List.nodup_cons] at hdistinct
    exact ih hdistinct.2 (halike.step hfree hleft hdistinct.1)

/-! ## The whole collection -/

section Collection

variable {manifestActions groupedActions : List Digest} {alreadyRemoved : Finset Path}
  {contents after : Contents}

/-- The objects that a collection protects. -/
def protectedObjects (json : RecordJson) (manifestActions groupedActions : List Digest)
    (contents : Contents) : Finset Path :=
  rootedActionObjects json contents manifestActions ∪
    rootedActionObjects json contents groupedActions

/-- A store without the files at some paths. -/
structure Without (contents : Contents) (alreadyRemoved : Finset Path) (after : Contents) :
    Prop where
  objects : after.objects.files = contents.objects.files.filter (·.path ∉ alreadyRemoved)
  results : after.results.files = contents.results.files.filter (·.path ∉ alreadyRemoved)

/-- The length of all objects and results. -/
def Contents.size (contents : Contents) : ℕ :=
  ((contents.objects.files ++ contents.results.files).map StoredFile.size).sum

private theorem foldl_remove (hfree : ∀ path, held path = false) (gone : Finset Path)
    (entries : List StoredFile) (tree : FileTree) :
    let final := entries.foldl (fun (state : FileTree × Finset Path) entry =>
      ((remove held state.1 entry.path).2, state.2)) (tree, gone)
    (∀ path, final.1.read path =
      if path ∈ entries.map StoredFile.path then none else tree.read path) ∧
    final.1.files.length ≤ tree.files.length ∧ final.2 = gone := by
  dsimp only
  induction entries generalizing tree with
  | nil => simp
  | cons entry rest ih =>
    obtain ⟨hread, hlength, hgone⟩ := ih (remove held tree entry.path).2
    rw [List.foldl_cons]
    have hone : (∀ path, (remove held tree entry.path).2.read path =
          if path = entry.path then none else tree.read path) ∧
        (remove held tree entry.path).2.files.length ≤ tree.files.length := by
      unfold remove
      split
      · rename_i hnone
        refine ⟨fun path => ?_, Nat.le_refl _⟩
        split
        · rename_i heq
          rw [heq]
          exact Option.isNone_iff_eq_none.mp hnone
        · rfl
      · rw [if_neg (by simp [hfree])]
        exact ⟨FileTree.read_erase, List.length_filter_le _ _⟩
    refine ⟨fun path => ?_, Nat.le_trans hlength hone.2, hgone⟩
    rw [hread, hone.1]
    by_cases hpath : path = entry.path <;> simp [hpath]

private theorem foldl_remember (entries : List StoredFile) (tree : FileTree) (gone : Finset Path) :
    let final := entries.foldl (fun (state : FileTree × Finset Path) entry =>
      (state.1, insert entry.path state.2)) (tree, gone)
    final.1 = tree ∧
      ∀ path, path ∈ final.2 ↔ path ∈ gone ∨ path ∈ entries.map StoredFile.path := by
  dsimp only
  induction entries generalizing gone with
  | nil => simp
  | cons entry rest ih =>
    obtain ⟨htree, hmem⟩ := ih (insert entry.path gone)
    refine ⟨htree, fun path => (hmem path).trans ?_⟩
    rw [Finset.mem_insert, List.map_cons, List.mem_cons]
    tauto

private theorem FileTree.read_of_filter {tree tree' : FileTree}
    (hfiles : tree'.files = tree.files.filter (·.path ∉ alreadyRemoved)) (path : Path) :
    tree'.read path = if path ∈ alreadyRemoved then none else tree.read path := by
  rw [read, read, hfiles, List.find?_filter]
  split
  · rename_i hgone
    rw [List.find?_eq_none.mpr, Option.map_none]
    intro file _
    by_cases hpath : file.path = path <;> simp [hpath, hgone]
  · rename_i hkept
    congr 2
    funext file
    by_cases hpath : file.path = path <;> simp [hpath, hkept]

private theorem evictOverBudget_preview (hfree : ∀ path, held path = false)
    (hwithout : Without contents alreadyRemoved after)
    (hrooted : maxBytes < after.size → ∀ file ∈ after.objects.files,
      file.path ∈ protectedObjects json manifestActions groupedActions contents ↔
        file.path ∈ protectedObjects json manifestActions groupedActions after) :
    let dry := evictOverBudget json held true manifestActions groupedActions alreadyRemoved
      maxBytes contents
    let real := evictOverBudget json held false manifestActions groupedActions ∅ maxBytes after
    dry.1 = real.1 ∧ dry.2.1 = contents.objects ∧ real.2.2 = ∅ ∧
      LeftOver contents.objects dry.2.2 real.2.1 := by
  have hread := FileTree.read_of_filter hwithout.objects
  have hlength : after.objects.files.length ≤ contents.objects.files.length := by
    rw [hwithout.objects]
    exact List.length_filter_le _ _
  dsimp only [evictOverBudget]
  rw [← hwithout.objects, ← hwithout.results]
  simp only [Finset.notMem_empty, not_false_eq_true, decide_true, List.filter_true,
    Bool.false_eq_true, if_false, if_true]
  by_cases hover : maxBytes < after.size
  · have horder := evictionOrder_congr (hrooted hover)
    have hperm := evictionOrder_perm
      (protectedObjects json manifestActions groupedActions after) after.objects.files
    unfold protectedObjects at horder hperm
    unfold Contents.size at hover
    rw [if_pos hover, if_pos hover, horder]
    rw [evictObjects_removed (fun _ _ => True) (fun _ _ _ _ => ⟨rfl, trivial⟩) trivial,
      evictObjects_removed (fun state entries =>
        (∀ entry ∈ entries, (state.1.read entry.path).isSome = true) ∧
          (entries.map StoredFile.path).Nodup) ?hstep ?hthere]
    case hstep =>
      rintro state entry rest ⟨hall, hdistinct⟩
      rw [List.map_cons, List.nodup_cons] at hdistinct
      have hremoved : remove held state.1 entry.path = (.removed, state.1.erase entry.path) := by
        have hsome := hall entry List.mem_cons_self
        rw [remove, if_neg (by simp [← Option.not_isSome, hsome]), if_neg (by simp [hfree])]
      rw [hremoved]
      refine ⟨rfl, fun other hother => ?_, hdistinct.2⟩
      have hne : other.path ≠ entry.path := fun heq =>
        hdistinct.1 (heq ▸ List.mem_map_of_mem hother)
      rw [FileTree.read_erase, if_neg hne]
      exact hall other (List.mem_cons_of_mem _ hother)
    case hthere =>
      refine ⟨fun entry hentry => ?_, (hperm.map _).nodup_iff.mpr after.objects.distinct⟩
      rw [FileTree.read_of_mem (hperm.mem_iff.mp hentry), Option.isSome_some]
    generalize doomed maxBytes _ _ = gone
    obtain ⟨hleft, hfewer, hempty⟩ := foldl_remove hfree ∅ gone after.objects
    obtain ⟨hsame, hmem⟩ := foldl_remember gone contents.objects alreadyRemoved
    refine ⟨rfl, hsame, hempty, fun path => ?_, Nat.le_trans hfewer hlength⟩
    rw [hleft, hread]
    by_cases hgone : path ∈ gone.map StoredFile.path
    · rw [if_pos hgone, if_pos ((hmem path).mpr (.inr hgone))]
    · rw [if_neg hgone]
      congr 1
      rw [hmem, or_iff_left hgone]
  · unfold Contents.size at hover
    rw [if_neg hover, if_neg hover]
    exact ⟨rfl, rfl, rfl, hread, hlength⟩

/-- A dry run reports what a real run reports on the store without what counts as gone, if
both protect the same of the objects that are left. -/
theorem gcWithMode_preview (hfree : ∀ path, held path = false)
    (hwithout : Without contents alreadyRemoved after)
    (hrooted : maxBytes < after.size → ∀ file ∈ after.objects.files,
      file.path ∈ protectedObjects json manifestActions groupedActions contents ↔
        file.path ∈ protectedObjects json manifestActions groupedActions after) :
    (gcWithMode json held true manifestActions groupedActions alreadyRemoved maxBytes
        contents).1 =
      (gcWithMode json held false manifestActions groupedActions ∅ maxBytes after).1 := by
  obtain ⟨hevicted, hobjects, hnone, hleft⟩ := evictOverBudget_preview hfree hwithout hrooted
  dsimp only [gcWithMode]
  rw [← hwithout.results]
  simp only [Finset.notMem_empty, not_false_eq_true, decide_true, List.filter_true, hevicted,
    hobjects, hnone]
  have hstart : ∀ liveBytes, Alike json
      (evictOverBudget json held false manifestActions groupedActions ∅ maxBytes after).2.1
      after.results.files ⟨contents.results, fun _ => none, liveBytes, 0, 0⟩
      ⟨after.results, fun _ => none, liveBytes, 0, 0⟩ := by
    intro liveBytes
    refine ⟨rfl, rfl, rfl, rfl, fun entry hentry => ?_, fun _ hentry => hentry, ?_⟩
    · rw [hwithout.results] at hentry
      exact List.mem_of_mem_filter hentry
    · exact fun _ hverdict => absurd hverdict (by simp)
  have hend (walkTrees : Bool) (liveBytes : ℕ) :=
    @Alike.run _ _ _ _ _ _ hfree hleft walkTrees _ _ after.results.distinct (hstart liveBytes)
  rw [(hend _ _).removedActionResults, (hend _ _).removedBytes, (hend _ _).liveBytes]

end Collection

end MrBoxington.Store
