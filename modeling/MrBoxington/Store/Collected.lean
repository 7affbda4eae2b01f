import Mathlib.Data.List.ReduceOption
import MrBoxington.Store.Collect

/-!
# What a collection leaves behind

Without other users every removal succeeds. The objects that go are the first ones in
the order of eviction, as many as are needed to meet the budget, and the results that
go are those that name an object that is gone, through their output tree or directly.
The output that their metadata names is not looked at.
-/

namespace MrBoxington.Store

open Protocol (Bytes Digest ActionResult RecordJson)

/-- The files at the front of a list that go before the rest fits the budget. -/
def doomed (maxBytes : ℕ) : ℕ → List StoredFile → List StoredFile
  | _, [] => []
  | liveBytes, entry :: rest =>
    if liveBytes ≤ maxBytes then []
    else entry :: doomed maxBytes (liveBytes - entry.size) rest

private theorem doomed_of_le {maxBytes liveBytes : ℕ} {entries : List StoredFile}
    (hfits : liveBytes ≤ maxBytes) : doomed maxBytes liveBytes entries = [] := by
  cases entries with
  | nil => rfl
  | cons entry rest => exact if_pos hfits

/-- The objects that a collection evicts. -/
def evictedObjects (json : RecordJson) (manifestActions groupedActions : List Digest)
    (maxBytes : ℕ) (contents : Contents) : List StoredFile :=
  doomed maxBytes
    ((contents.objects.files ++ contents.results.files).map StoredFile.size).sum
    (evictionOrder (rootedActionObjects json contents manifestActions ∪
      rootedActionObjects json contents groupedActions) contents.objects.files)

/-- No directory lies below itself. Directories are named by the hash of their contents,
so a cycle would be a collision. -/
def AcyclicDirectories (json : RecordJson) (files : Files) : Prop :=
  MemoCheck.Acyclic (subdirectories json files)

/-- A result can be read and names an object that is gone, not counting the captured
output. -/
def Dangles (json : RecordJson) (files : Files) (bytes : Bytes) : Prop :=
  ∃ result, json.actionResult bytes = some result ∧
    ∃ digest, Walked json files result digest ∧ ¬Present files digest

variable {json : RecordJson} {held : Path → Bool} {tree kept : FileTree} {path : Path}
  {rooted gone : Finset Path} {maxBytes liveBytes : ℕ} {outcome : ObjectEvictions}
  {entries : List StoredFile} {file : StoredFile} {digest : Digest}

/-! ## Files -/

namespace FileTree

theorem read_of_mem (hmem : file ∈ tree.files) : tree.read file.path = some file.bytes := by
  have hfind : tree.files.find? (fun f => f.path = file.path) = some file := by
    cases hfound : tree.files.find? fun f => f.path = file.path with
    | none => exact absurd (decide_eq_true rfl) (List.find?_eq_none.mp hfound file hmem)
    | some found =>
      have hpath : found.path = file.path := by simpa using List.find?_some hfound
      rw [List.inj_on_of_nodup_map tree.distinct (List.mem_of_find?_eq_some hfound) hmem hpath]
  rw [read, hfind, Option.map_some]

theorem exists_of_read {bytes : Bytes} (hread : tree.read path = some bytes) :
    ∃ file ∈ tree.files, file.path = path ∧ file.bytes = bytes := by
  obtain ⟨file, hfind, hbytes⟩ := Option.map_eq_some_iff.mp hread
  exact ⟨file, List.mem_of_find?_eq_some hfind, by simpa using List.find?_some hfind, hbytes⟩

theorem mem_erase : file ∈ (tree.erase path).files ↔ file ∈ tree.files ∧ file.path ≠ path := by
  simp [erase]

/-- Erasing a path changes what is read at this path only. -/
theorem read_erase (other : Path) :
    (tree.erase path).read other = if other = path then none else tree.read other := by
  split
  · rename_i heq
    cases hread : (tree.erase path).read other with
    | none => rfl
    | some bytes =>
      obtain ⟨file, hfile, hpath, -⟩ := exists_of_read hread
      exact absurd (hpath.trans heq) (mem_erase.mp hfile).2
  · rename_i hne
    rw [read, read, erase, List.find?_filter]
    congr 2
    funext file
    by_cases hpath : file.path = other <;> simp [hpath, hne]

end FileTree

/-! ## Evicting -/

private theorem evictObjects_of_free (hfree : ∀ path, held path = false)
    (hthere : ∀ entry ∈ entries, (tree.read entry.path).isSome = true)
    (hdistinct : (entries.map StoredFile.path).Nodup) :
    let evicted := evictObjects rooted maxBytes (fun (state : FileTree × Finset Path) path =>
        ((remove held state.1 path).1, (remove held state.1 path).2, state.2))
      entries liveBytes false outcome (tree, gone)
    evicted.1.removedObjects =
        outcome.removedObjects + (doomed maxBytes liveBytes entries).length ∧
      (∀ path, evicted.2.1.read path =
        if path ∈ (doomed maxBytes liveBytes entries).map StoredFile.path then none
        else tree.read path) ∧
      evicted.2.2 = gone := by
  dsimp only
  induction entries generalizing liveBytes outcome tree with
  | nil => simp [evictObjects, doomed]
  | cons entry rest ih =>
    unfold evictObjects doomed
    by_cases hfits : liveBytes ≤ maxBytes
    · simp [hfits]
    rw [List.map_cons, List.nodup_cons] at hdistinct
    have hremoved : remove held tree entry.path = (.removed, tree.erase entry.path) := by
      have hsome := hthere entry List.mem_cons_self
      rw [remove, if_neg (by simp [← Option.not_isSome, hsome]), if_neg (by simp [hfree])]
    have hrest : ∀ e ∈ rest, ((tree.erase entry.path).read e.path).isSome = true := by
      intro e he
      have hne : e.path ≠ entry.path := fun heq =>
        hdistinct.1 (heq ▸ List.mem_map_of_mem he)
      rw [FileTree.read_erase, if_neg hne]
      exact hthere e (List.mem_cons_of_mem _ he)
    rw [if_neg (by simp [hfits]), if_neg hfits]
    simp only [hremoved]
    obtain ⟨hcount, hread, hgone⟩ := ih hrest hdistinct.2
    refine ⟨?_, ?_, hgone⟩
    · rw [hcount, List.length_cons]
      dsimp only
      omega
    · intro path
      rw [hread, FileTree.read_erase]
      by_cases hpath : path = entry.path <;> simp [hpath]

/-- The order of eviction drops and repeats nothing. -/
theorem evictionOrder_perm (rooted : Finset Path) (objects : List StoredFile) :
    (evictionOrder rooted objects).Perm objects := List.perm_insertionSort _ _

/-! ## Dangling results -/

private theorem missing_eq_false : missing tree ∅ digest = false ↔ Present tree.read digest := by
  unfold missing Present readObject
  cases objectPath digest with
  | none => simp
  | some path => cases hread : tree.read path <;> simp [hread]

theorem mem_parents (hchildren : subdirectories json tree.read digest ≠ []) :
    digest ∈ (tree.files.filterMap fun file => digestFromPath file.path).toFinset := by
  cases hpath : objectPath digest with
  | none => simp [subdirectories, readDirectory, readObject, hpath] at hchildren
  | some path =>
    cases hread : tree.read path with
    | none => simp [subdirectories, readDirectory, readObject, hpath, hread] at hchildren
    | some bytes =>
      obtain ⟨file, hfile, rfl, -⟩ := FileTree.exists_of_read hread
      rw [List.mem_toFinset, List.mem_filterMap]
      exact ⟨file, hfile, digestFromPath_objectPath hpath⟩

/-- Remembered verdicts on output trees are right. -/
def SoundTrees (json : RecordJson) (tree : FileTree) (trees : MemoCheck.Memo Digest) : Prop :=
  MemoCheck.Sound
    (fun directory => (fileDigests json tree.read directory).all fun file => !missing tree ∅ file)
    (fun child => !missing tree ∅ child) (subdirectories json tree.read) ∅ trees

private theorem SoundTrees.empty : SoundTrees json tree fun _ => none :=
  fun _ _ hverdict => absurd hverdict (by simp)

private theorem treeIsComplete_spec (hacyclic : AcyclicDirectories json tree.read)
    {trees : MemoCheck.Memo Digest} (hsound : SoundTrees json tree trees) (root : Digest) :
    ((treeIsComplete json tree ∅ trees root).1 = true ↔
      ∀ directory, Below json tree.read root directory →
        (∀ file ∈ fileDigests json tree.read directory, Present tree.read file) ∧
        ∀ child ∈ subdirectories json tree.read directory, Present tree.read child) ∧
    SoundTrees json tree (treeIsComplete json tree ∅ trees root).2 := by
  have hfuel : MemoCheck.unseen
      (tree.files.filterMap fun file => digestFromPath file.path).toFinset trees <
        tree.files.length + 1 := by
    refine Nat.lt_succ_of_le (Nat.le_trans (Finset.card_filter_le _ _) ?_)
    exact Nat.le_trans (List.toFinset_card_le _) (List.length_filterMap_le _ _)
  obtain ⟨hverdict, hkept, -⟩ := MemoCheck.check_spec hacyclic
    (fun _ hchildren => mem_parents hchildren) root hsound (by simp) hfuel
  refine ⟨hverdict.trans ?_, hkept⟩
  unfold MemoCheck.Complete Below MemoCheck.Child
  simp only [List.all_eq_true, Bool.not_eq_true', missing_eq_false]

private theorem actionResultBytesAreDangling_spec (hacyclic : AcyclicDirectories json tree.read)
    {trees : MemoCheck.Memo Digest} (hsound : SoundTrees json tree trees) (bytes : Bytes) :
    ((actionResultBytesAreDangling json tree ∅ bytes true trees).1 = true ↔
      Dangles json tree.read bytes) ∧
    SoundTrees json tree (actionResultBytesAreDangling json tree ∅ bytes true trees).2 := by
  unfold actionResultBytesAreDangling
  cases hresult : json.actionResult bytes with
  | none => exact ⟨by simp [Dangles, hresult], hsound⟩
  | some result =>
    have hdangles : Dangles json tree.read bytes ↔
        ¬∀ digest, Walked json tree.read result digest → Present tree.read digest := by
      simp [Dangles, hresult]
    have hnamed : [some result.action, result.metadata, result.outputRoot].reduceOption.any
        (missing tree ∅) = false ↔
          ∀ digest, some digest ∈ [some result.action, result.metadata, result.outputRoot] →
            Present tree.read digest := by
      simp only [List.any_eq_false, List.reduceOption_mem_iff, Bool.not_eq_true, missing_eq_false]
    rw [hdangles, walked_present_iff, ← hnamed]
    dsimp only
    cases [some result.action, result.metadata, result.outputRoot].reduceOption.any
        (missing tree ∅) with
    | true => exact ⟨by simp, hsound⟩
    | false =>
      cases hroot : result.outputRoot with
      | none => exact ⟨by simp, hsound⟩
      | some root =>
        obtain ⟨hverdict, hkept⟩ := treeIsComplete_spec hacyclic hsound root
        refine ⟨?_, hkept⟩
        simp only [Option.some.injEq, forall_eq', ← hverdict, true_and]
        simp

/-! ## The pass over the results -/

section Pass

variable {pass : ResultPass} {entry : StoredFile}
  (hacyclic : AcyclicDirectories json tree.read) (hsound : SoundTrees json tree pass.trees)
include hacyclic hsound

private theorem dropDangling_of_dangles (hfree : ∀ path, held path = false)
    (hentry : entry ∈ pass.results.files) (hdangles : Dangles json tree.read entry.bytes) :
    (dropDangling json held false tree ∅ true pass entry).results =
        pass.results.erase entry.path ∧
      SoundTrees json tree (dropDangling json held false tree ∅ true pass entry).trees := by
  have hread := FileTree.read_of_mem hentry
  obtain ⟨hverdict, hkept⟩ := actionResultBytesAreDangling_spec hacyclic hsound entry.bytes
  obtain ⟨hagain, -⟩ := actionResultBytesAreDangling_spec hacyclic SoundTrees.empty entry.bytes
  have hclaimed : claimAndRemove json held tree ∅ true pass.results entry.path =
      some (.removed, pass.results.erase entry.path) := by
    simp [claimAndRemove, hfree, hread, hagain.mpr hdangles, remove]
  have hjudged : actionResultIsDangling json tree ∅ pass.results entry.path true pass.trees =
      (true, (actionResultBytesAreDangling json tree ∅ entry.bytes true pass.trees).2) := by
    rw [actionResultIsDangling, hread]
    exact Prod.ext (hverdict.mpr hdangles) rfl
  simp only [dropDangling, hjudged, hclaimed, Bool.false_eq_true, if_false, true_and]
  exact hkept

private theorem dropDangling_of_not_dangles (held : Path → Bool)
    (hentry : entry ∈ pass.results.files)
    (hdangles : ¬Dangles json tree.read entry.bytes) :
    (dropDangling json held false tree ∅ true pass entry).results = pass.results ∧
      SoundTrees json tree (dropDangling json held false tree ∅ true pass entry).trees := by
  have hread := FileTree.read_of_mem hentry
  obtain ⟨hverdict, hkept⟩ := actionResultBytesAreDangling_spec hacyclic hsound entry.bytes
  have hjudged : actionResultIsDangling json tree ∅ pass.results entry.path true pass.trees =
      (false, (actionResultBytesAreDangling json tree ∅ entry.bytes true pass.trees).2) := by
    rw [actionResultIsDangling, hread]
    exact Prod.ext (Bool.not_eq_true _ ▸ mt hverdict.mp hdangles) rfl
  simp only [dropDangling, hjudged, true_and]
  exact hkept

end Pass

private theorem foldl_dropDangling (hfree : ∀ path, held path = false)
    (hacyclic : AcyclicDirectories json tree.read) {pass : ResultPass}
    (hsound : SoundTrees json tree pass.trees)
    (hthere : ∀ entry ∈ entries, entry ∈ pass.results.files)
    (hdistinct : (entries.map StoredFile.path).Nodup) :
    file ∈ (entries.foldl (dropDangling json held false tree ∅ true) pass).results.files ↔
      file ∈ pass.results.files ∧ ¬(file ∈ entries ∧ Dangles json tree.read file.bytes) := by
  induction entries generalizing pass with
  | nil => simp
  | cons entry rest ih =>
    rw [List.map_cons, List.nodup_cons] at hdistinct
    have hentry := hthere entry List.mem_cons_self
    rw [List.foldl_cons]
    by_cases hdangles : Dangles json tree.read entry.bytes
    · obtain ⟨hresults, htrees⟩ := dropDangling_of_dangles hacyclic hsound hfree hentry hdangles
      have hrest : ∀ e ∈ rest,
          e ∈ (dropDangling json held false tree ∅ true pass entry).results.files := by
        intro e he
        rw [hresults, FileTree.mem_erase]
        exact ⟨hthere e (List.mem_cons_of_mem _ he),
          fun heq => hdistinct.1 (heq ▸ List.mem_map_of_mem he)⟩
      rw [ih htrees hrest hdistinct.2, hresults, FileTree.mem_erase, List.mem_cons]
      constructor
      · rintro ⟨⟨hfile, hpath⟩, hnot⟩
        refine ⟨hfile, ?_⟩
        rintro ⟨rfl | hin, hfileDangles⟩
        · exact hpath rfl
        · exact hnot ⟨hin, hfileDangles⟩
      · rintro ⟨hfile, hnot⟩
        refine ⟨⟨hfile, fun hpath => hnot ⟨.inl ?_, ?_⟩⟩, fun hin => hnot ⟨.inr hin.1, hin.2⟩⟩
        · exact List.inj_on_of_nodup_map pass.results.distinct hfile hentry hpath
        · rw [List.inj_on_of_nodup_map pass.results.distinct hfile hentry hpath]
          exact hdangles
    · obtain ⟨hresults, htrees⟩ :=
        dropDangling_of_not_dangles hacyclic hsound held hentry hdangles
      rw [ih htrees (fun e he => hresults ▸ hthere e (List.mem_cons_of_mem _ he)) hdistinct.2,
        hresults, List.mem_cons]
      constructor
      · rintro ⟨hfile, hnot⟩
        refine ⟨hfile, ?_⟩
        rintro ⟨rfl | hin, hfileDangles⟩
        · exact hdangles hfileDangles
        · exact hnot ⟨hin, hfileDangles⟩
      · rintro ⟨hfile, hnot⟩
        exact ⟨hfile, fun hin => hnot ⟨.inr hin.1, hin.2⟩⟩

/-! ## The collection -/

section Collection

variable {contents : Contents} {manifestActions groupedActions : List Digest}

/-- An object is among those that a collection evicts. -/
def Evicted (json : RecordJson) (manifestActions groupedActions : List Digest) (maxBytes : ℕ)
    (contents : Contents) (digest : Digest) : Prop :=
  ∃ file ∈ evictedObjects json manifestActions groupedActions maxBytes contents,
    objectPath digest = some file.path

private theorem evictOverBudget_spec (json : RecordJson) (contents : Contents)
    (manifestActions groupedActions : List Digest) (maxBytes : ℕ)
    (hfree : ∀ path, held path = false) :
    let evicted :=
      evictOverBudget json held false manifestActions groupedActions ∅ maxBytes contents
    (∀ path, evicted.2.1.read path =
      if path ∈ (evictedObjects json manifestActions groupedActions maxBytes contents).map
        StoredFile.path then none else contents.objects.read path) ∧
    evicted.2.2 = ∅ := by
  dsimp only [evictOverBudget, evictedObjects]
  simp only [Finset.notMem_empty, not_false_eq_true, decide_true, List.filter_true,
    Bool.false_eq_true, if_false]
  split
  · have hperm := evictionOrder_perm (rootedActionObjects json contents manifestActions ∪
      rootedActionObjects json contents groupedActions) contents.objects.files
    refine (evictObjects_of_free hfree ?_ ?_).2
    · intro entry hentry
      rw [FileTree.read_of_mem (hperm.mem_iff.mp hentry), Option.isSome_some]
    · exact (hperm.map _).nodup_iff.mpr contents.objects.distinct
  · rename_i hfits
    simp only [doomed_of_le (Nat.not_lt.mp hfits), List.map_nil, List.not_mem_nil, if_false,
      implies_true, and_self]

private theorem readObject_of_present {files files' : Files} {paths : List Path}
    (hread : ∀ path, files' path = if path ∈ paths then none else files path)
    (hpresent : Present files' digest) : readObject files' digest = readObject files digest := by
  unfold Present readObject at hpresent
  unfold readObject
  cases hpath : objectPath digest with
  | none => rfl
  | some path =>
    rw [hpath, Option.bind_some, hread] at hpresent
    rw [Option.bind_some, Option.bind_some, hread]
    split
    · rename_i hgone
      simp [hgone] at hpresent
    · rfl

private theorem present_iff_not_gone {files files' : Files} {entries : List StoredFile}
    (hread : ∀ path, files' path =
      if path ∈ entries.map StoredFile.path then none else files path) :
    Present files' digest ↔ Present files digest ∧
      ¬∃ file ∈ entries, objectPath digest = some file.path := by
  unfold Present readObject
  cases hpath : objectPath digest with
  | none => simp
  | some path =>
    rw [Option.bind_some, Option.bind_some, hread]
    by_cases hgone : path ∈ entries.map StoredFile.path
    · obtain ⟨file, hfile, rfl⟩ := List.mem_map.mp hgone
      rw [if_pos hgone]
      exact iff_of_false (by simp) fun hkept => hkept.2 ⟨file, hfile, rfl⟩
    · rw [if_neg hgone]
      refine ⟨fun hsome => ⟨hsome, ?_⟩, fun hkept => hkept.1⟩
      rintro ⟨file, hfile, heq⟩
      exact hgone (Option.some.inj heq ▸ List.mem_map_of_mem hfile)

private theorem AcyclicDirectories.of_kept {files files' : Files}
    (hacyclic : AcyclicDirectories json files)
    (hkept : ∀ digest, Present files' digest →
      readObject files' digest = readObject files digest) : AcyclicDirectories json files' := by
  intro node hcycle
  refine hacyclic node (Relation.TransGen.mono (fun parent child hchild => ?_) _ _ hcycle)
  have hpresent : Present files' parent := by
    unfold MemoCheck.Child subdirectories readDirectory at hchild
    cases hread : readObject files' parent with
    | none => simp [hread] at hchild
    | some bytes => simp [Present, hread]
  rw [MemoCheck.Child, ← (names_congr (hkept parent hpresent)).1]
  exact hchild

/-- A result that could be restored names nothing that is gone, exactly if nothing that it
names is gone from where it was. -/
private theorem walked_present_of_kept {files files' : Files} {result : ActionResult}
    (hkept : ∀ digest, Present files' digest → readObject files' digest = readObject files digest) :
    (∀ digest, Walked json files' result digest → Present files' digest) ↔
      ∀ digest, Walked json files result digest → Present files' digest := by
  constructor
  · intro hpresent digest hwalked
    exact hpresent digest ((walked_iff_of_kept fun other hother =>
      (hkept other (hpresent other hother)).symm).mp hwalked)
  · intro hpresent digest hwalked
    exact hpresent digest ((walked_iff_of_kept fun other hother =>
      hkept other (hpresent other hother)).mp hwalked)

/-- A collection that evicts something leaves the other objects, and the results that do
not dangle. -/
theorem gcWithMode_spec (hfree : ∀ path, held path = false)
    (hacyclic : AcyclicDirectories json contents.objects.read)
    (hevicted : 0 < (gcWithMode json held false manifestActions groupedActions ∅ maxBytes
      contents).1.removedObjects) :
    let collected := (gcWithMode json held false manifestActions groupedActions ∅ maxBytes
      contents).2
    (∀ path, collected.objects.read path =
      if path ∈ (evictedObjects json manifestActions groupedActions maxBytes contents).map
        StoredFile.path then none else contents.objects.read path) ∧
    ∀ file, file ∈ collected.results.files ↔
      file ∈ contents.results.files ∧ ¬Dangles json collected.objects.read file.bytes := by
  obtain ⟨hread, hgone⟩ :=
    evictOverBudget_spec json contents manifestActions groupedActions maxBytes hfree
  dsimp only [gcWithMode] at hevicted ⊢
  refine ⟨hread, fun file => ?_⟩
  have hkept := hacyclic.of_kept fun digest hpresent => readObject_of_present hread hpresent
  simp only [hgone, hevicted, decide_true, Finset.notMem_empty, not_false_eq_true,
    List.filter_true]
  rw [foldl_dropDangling hfree hkept SoundTrees.empty (fun _ hentry => hentry)
    contents.results.distinct]
  dsimp only
  constructor
  · rintro ⟨hfile, hnot⟩
    exact ⟨hfile, fun hdangles => hnot ⟨hfile, hdangles⟩⟩
  · rintro ⟨hfile, hnot⟩
    exact ⟨hfile, fun hboth => hnot hboth.2⟩

/-- After a collection that evicts something every result that is left can be restored,
exactly if no result loses its captured output alone: whenever an object that its
metadata names is evicted, so is one that it names otherwise. -/
theorem gcWithMode_restorable_iff (hfree : ∀ path, held path = false)
    (hcomplete : ∀ file ∈ contents.results.files, ∀ result,
      json.actionResult file.bytes = some result → Restorable json contents.objects.read result)
    (hacyclic : AcyclicDirectories json contents.objects.read)
    (hevicted : 0 < (gcWithMode json held false manifestActions groupedActions ∅ maxBytes
      contents).1.removedObjects) :
    (∀ file ∈ (gcWithMode json held false manifestActions groupedActions ∅ maxBytes
        contents).2.results.files, ∀ result, json.actionResult file.bytes = some result →
      Restorable json (gcWithMode json held false manifestActions groupedActions ∅ maxBytes
        contents).2.objects.read result) ↔
    ∀ file ∈ contents.results.files, ∀ result, json.actionResult file.bytes = some result →
      (∃ digest, Captured json contents.objects.read result digest ∧
        Evicted json manifestActions groupedActions maxBytes contents digest) →
      ∃ digest, Walked json contents.objects.read result digest ∧
        Evicted json manifestActions groupedActions maxBytes contents digest := by
  obtain ⟨hread, hresults⟩ := gcWithMode_spec hfree hacyclic hevicted
  generalize (gcWithMode json held false manifestActions groupedActions ∅ maxBytes
    contents).2 = collected at hread hresults
  have hkept : ∀ digest, Present collected.objects.read digest →
      readObject collected.objects.read digest = readObject contents.objects.read digest :=
    fun digest hpresent => readObject_of_present hread hpresent
  have hstays : ∀ file ∈ contents.results.files, ∀ result,
      json.actionResult file.bytes = some result →
      (file ∈ collected.results.files ↔ ∀ digest,
        Walked json contents.objects.read result digest →
          Present collected.objects.read digest) := by
    intro file hfile result hresult
    rw [hresults, ← walked_present_of_kept hkept]
    simp [hfile, Dangles, hresult]
  constructor
  · rintro hrestorable file hfile result hresult ⟨digest, hcaptured, hgone⟩
    by_contra hnone
    -- No walked object is evicted, so the result stays, without its captured output.
    have hpresent : ∀ other, Walked json contents.objects.read result other →
        Present collected.objects.read other := by
      intro other hother
      rw [present_iff_not_gone hread]
      exact ⟨hcomplete file hfile result hresult other (.inl hother),
        fun hevicted => hnone ⟨other, hother, hevicted⟩⟩
    have hstill : Captured json collected.objects.read result digest :=
      (captured_iff_of_kept fun other hother => hkept other (hpresent other hother)).mpr hcaptured
    have hthere := hrestorable file ((hstays file hfile result hresult).mpr hpresent) result
      hresult digest (.inr hstill)
    exact ((present_iff_not_gone hread).mp hthere).2 hgone
  · intro hcondition file hfile result hresult digest hnamed
    have hbefore := ((hresults file).mp hfile).1
    have hpresent := (hstays file hbefore result hresult).mp hfile
    rcases hnamed with hwalked | hcaptured
    · exact (walked_present_of_kept hkept).mpr hpresent digest hwalked
    · have hcaptured := (captured_iff_of_kept fun other hother =>
        hkept other (hpresent other hother)).mp hcaptured
      rw [present_iff_not_gone hread]
      refine ⟨hcomplete file hbefore result hresult digest (.inr hcaptured), fun hgone => ?_⟩
      obtain ⟨other, hother, hotherGone⟩ :=
        hcondition file hbefore result hresult ⟨digest, hcaptured, hgone⟩
      exact ((present_iff_not_gone hread).mp (hpresent other hother)).2 hotherGone

end Collection

/-! ## A result without its captured output -/

/-- A digest with a hash of one repeated digit. -/
def plainDigest (digit : Char) (size : ℕ) : Digest :=
  ⟨"blake3", String.ofList (List.replicate 64 digit), size⟩

/-- The record of an action whose outputs are not kept. -/
def silentResult : ActionResult := ⟨plainDigest 'a' 1, some (plainDigest 'b' 1), none, 1⟩

/-- A JSON library that reads that record and its metadata. -/
def silentJson : RecordJson where
  actionResult bytes := if bytes = [1] then some silentResult else none
  directory _ := none
  rustcMetadata bytes :=
    if bytes = [2] then some ⟨1, "rustc", plainDigest 'c' 2, plainDigest 'c' 2⟩ else none
  capturedOutput bytes :=
    if bytes = [2] then some ⟨plainDigest 'c' 2, plainDigest 'c' 2⟩ else none

/-- A file with the path of an object. -/
def plainObject (digit : Char) (bytes : Bytes) (used : ℤ) : StoredFile :=
  ⟨(objectPath (plainDigest digit bytes.length)).getD [], bytes, used⟩

/-- A store with that action, whose captured output was used before the rest. -/
def silentContents : Contents where
  objects := ⟨[plainObject 'a' [10] 5, plainObject 'b' [2] 5, plainObject 'c' [11, 12] 1],
    by decide +kernel⟩
  results := ⟨[⟨(resultPath (plainDigest 'a' 1)).getD [], [1], 5⟩], by decide +kernel⟩

private theorem silent_acyclic : AcyclicDirectories silentJson silentContents.objects.read := by
  intro node hcycle
  obtain ⟨child, hchild, -⟩ := Relation.TransGen.head'_iff.mp hcycle
  unfold MemoCheck.Child subdirectories readDirectory at hchild
  cases hread : readObject silentContents.objects.read node <;>
    simp [hread, silentJson] at hchild

private theorem silent_result {file : StoredFile} {result : ActionResult}
    (hfile : file ∈ silentContents.results.files)
    (hresult : silentJson.actionResult file.bytes = some result) : result = silentResult := by
  rw [List.mem_singleton.mp hfile] at hresult
  exact (Option.some.inj hresult).symm

private theorem silent_captured {digest : Digest}
    (hcaptured : Captured silentJson silentContents.objects.read silentResult digest) :
    digest = plainDigest 'c' 2 := by
  have hread : readCapturedOutput silentJson silentContents.objects.read (plainDigest 'b' 1) =
      some ⟨plainDigest 'c' 2, plainDigest 'c' 2⟩ := by decide +kernel
  rcases hcaptured with ⟨hmetadata, hcaptured⟩ | ⟨hmetadata, hcaptured⟩ <;>
  · cases hmetadata
    rw [hread] at hcaptured
    cases hcaptured
    rfl

private theorem silent_restorable : ∀ file ∈ silentContents.results.files, ∀ result,
    silentJson.actionResult file.bytes = some result →
      Restorable silentJson silentContents.objects.read result := by
  intro file hfile result hresult digest hnamed
  rw [silent_result hfile hresult] at hnamed
  rcases hnamed with hwalked | hcaptured
  · rcases hwalked with _ | hmetadata | hroot | ⟨hroot, -, -⟩ | ⟨hroot, -, -⟩
    · exact (by decide +kernel :
        (readObject silentContents.objects.read (plainDigest 'a' 1)).isSome = true)
    · cases hmetadata
      exact (by decide +kernel :
        (readObject silentContents.objects.read (plainDigest 'b' 1)).isSome = true)
    all_goals cases hroot
  · rw [silent_captured hcaptured]
    exact (by decide +kernel :
      (readObject silentContents.objects.read (plainDigest 'c' 2)).isSome = true)

/-- A budget that takes the action along with the captured output takes the result too. -/
theorem gcWithMode_restorable_iff_dropped :
    (gcWithMode silentJson (fun _ => false) false [] [] ∅ 2 silentContents).1.removedObjects = 2 ∧
    ∀ file ∈ (gcWithMode silentJson (fun _ => false) false [] [] ∅ 2
        silentContents).2.results.files, ∀ result,
      silentJson.actionResult file.bytes = some result →
        Restorable silentJson (gcWithMode silentJson (fun _ => false) false [] [] ∅ 2
          silentContents).2.objects.read result := by
  have hevicted : (gcWithMode silentJson (fun _ => false) false [] [] ∅ 2
      silentContents).1.removedObjects = 2 := by decide +kernel
  refine ⟨hevicted, (gcWithMode_restorable_iff (fun _ => rfl) silent_restorable silent_acyclic
    (by rw [hevicted]; exact Nat.two_pos)).mpr ?_⟩
  intro file hfile result hresult _
  rw [silent_result hfile hresult]
  exact ⟨_, .action, plainObject 'a' [10] 5, by decide +kernel, by decide +kernel⟩

/-- A budget that takes the captured output alone leaves a result that cannot be restored,
although every result could be before. -/
theorem gcWithMode_strands_result :
    (∀ file ∈ silentContents.results.files, ∀ result,
      silentJson.actionResult file.bytes = some result →
        Restorable silentJson silentContents.objects.read result) ∧
    AcyclicDirectories silentJson silentContents.objects.read ∧
    (gcWithMode silentJson (fun _ => false) false [] [] ∅ 3 silentContents).1.removedObjects = 1 ∧
    ¬∀ file ∈ (gcWithMode silentJson (fun _ => false) false [] [] ∅ 3
        silentContents).2.results.files, ∀ result,
      silentJson.actionResult file.bytes = some result →
        Restorable silentJson (gcWithMode silentJson (fun _ => false) false [] [] ∅ 3
          silentContents).2.objects.read result := by
  refine ⟨silent_restorable, silent_acyclic, by decide +kernel, fun hrestorable => ?_⟩
  have hstays : ⟨(resultPath (plainDigest 'a' 1)).getD [], [1], 5⟩ ∈
      (gcWithMode silentJson (fun _ => false) false [] [] ∅ 3 silentContents).2.results.files := by
    decide +kernel
  have hcaptured : Captured silentJson (gcWithMode silentJson (fun _ => false) false [] [] ∅ 3
      silentContents).2.objects.read silentResult (plainDigest 'c' 2) := by
    have hread : readCapturedOutput silentJson (gcWithMode silentJson (fun _ => false) false [] []
        ∅ 3 silentContents).2.objects.read (plainDigest 'b' 1) =
        some ⟨plainDigest 'c' 2, plainDigest 'c' 2⟩ := by
      decide +kernel
    exact .stdout rfl hread
  have hpresent := hrestorable _ hstays silentResult rfl _ (.inr hcaptured)
  exact absurd hpresent (by unfold Present; decide +kernel)

end MrBoxington.Store
