import MrBoxington.Store.DryRun
import MrBoxington.Store.Sweep

/-!
# A sweep and its dry run

Where nobody else uses the store and every removal succeeds, a dry run counts what the
sweep removes, with one exception: where the directory for the locks of task manifests is
missing, the sweep cannot take a lock there and leaves the manifests that the dry run counts.
-/

namespace MrBoxington.Store

open Protocol (Bytes Digest RecordJson validTaskIdentity)

variable {json : SweepJson} {around : Surroundings} {held : Path → Bool} {dryRun : Bool}
  {live : List String} {tree : FileTree} {path : Path} {files : List StoredFile}

/-! ## Removing files -/

private theorem foldl_removeCounted_dry (removed : RemovedFiles) (files : List StoredFile) :
    files.foldl (removeCounted held true) (removed, tree) =
      (⟨removed.count + files.length, removed.bytes + (files.map StoredFile.size).sum⟩, tree) := by
  induction files generalizing removed with
  | nil => rfl
  | cons file rest ih =>
    rw [List.foldl_cons, removeCounted, if_pos rfl, ih, List.length_cons, List.map_cons,
      List.sum_cons]
    simp only [Nat.add_assoc, Nat.add_comm 1]

private theorem removeCounted_of_mem (hfree : ∀ path, held path = false) {removed : RemovedFiles}
    {file : StoredFile} (hfile : file ∈ tree.files) :
    removeCounted held false (removed, tree) file =
      (⟨removed.count + 1, removed.bytes + file.size⟩, tree.erase file.path) := by
  have hremoved : remove held tree file.path = (.removed, tree.erase file.path) := by
    simp [remove, FileTree.read_of_mem hfile, hfree]
  rw [removeCounted, if_neg Bool.noConfusion, hremoved]

private theorem foldl_removeCounted (hfree : ∀ path, held path = false) (removed : RemovedFiles)
    (hfiles : ∀ file ∈ files, file ∈ tree.files)
    (hdistinct : (files.map StoredFile.path).Nodup) :
    let final := files.foldl (removeCounted held false) (removed, tree)
    final.1 = ⟨removed.count + files.length, removed.bytes + (files.map StoredFile.size).sum⟩ ∧
      final.2.files = tree.files.filter (·.path ∉ files.map StoredFile.path) := by
  dsimp only
  induction files generalizing removed tree with
  | nil => simp
  | cons file rest ih =>
    rw [List.map_cons, List.nodup_cons] at hdistinct
    have hrest : ∀ other ∈ rest, other ∈ (tree.erase file.path).files := by
      intro other hother
      rw [FileTree.mem_erase]
      exact ⟨hfiles other (List.mem_cons_of_mem _ hother),
        fun heq => hdistinct.1 (heq ▸ List.mem_map_of_mem hother)⟩
    obtain ⟨hcount, hleft⟩ := ih ⟨removed.count + 1, removed.bytes + file.size⟩ hrest hdistinct.2
    rw [List.foldl_cons, removeCounted_of_mem hfree (hfiles file List.mem_cons_self)]
    refine ⟨?_, ?_⟩
    · rw [hcount, List.length_cons, List.map_cons, List.sum_cons]
      simp only [Nat.add_assoc, Nat.add_comm 1]
    · rw [hleft, FileTree.erase, List.filter_filter]
      apply List.filter_congr
      intro other _
      rw [List.map_cons]
      by_cases heq : other.path = file.path <;> simp [heq]

/-! ## Checkouts -/

private theorem staleRecords_sublist (json : SweepJson) (around : Surroundings)
    (files : List StoredFile)
    (scan : CheckoutScan) :
    ∃ stale, stale.Sublist files ∧
      (files.foldl (scanRecord json around) scan).staleRecords = scan.staleRecords ++ stale := by
  induction files generalizing scan with
  | nil => exact ⟨[], .slnil, by simp⟩
  | cons file rest ih =>
    obtain ⟨stale, hsublist, heq⟩ := ih (scanRecord json around scan file)
    have hone : (scanRecord json around scan file).staleRecords = scan.staleRecords ∨
        (scanRecord json around scan file).staleRecords = scan.staleRecords ++ [file] := by
      unfold scanRecord
      split
      · exact .inl rfl
      · split
        · exact .inl rfl
        · split
          · exact .inl rfl
          · exact .inr rfl
    rw [List.foldl_cons, heq]
    rcases hone with hsame | hadded
    · exact ⟨stale, hsublist.cons _, by rw [hsame]⟩
    · exact ⟨file :: stale, hsublist.cons_cons _, by rw [hadded, List.append_assoc]; rfl⟩

private theorem removedRecords_eq (json : SweepJson) (around : Surroundings)
    (hfree : ∀ path, held path = false) (checkouts : FileTree) :
    ((scanCheckouts json around checkouts).staleRecords.foldl (removeCounted held true)
        (⟨0, 0⟩, checkouts)).1 =
      ((scanCheckouts json around checkouts).staleRecords.foldl (removeCounted held false)
        (⟨0, 0⟩, checkouts)).1 := by
  obtain ⟨stale, hsublist, heq⟩ := staleRecords_sublist json around checkouts.files ⟨[], []⟩
  have hstale : (scanCheckouts json around checkouts).staleRecords = stale := heq
  rw [hstale, foldl_removeCounted_dry, (foldl_removeCounted hfree ⟨0, 0⟩
    (fun _ hfile => hsublist.subset hfile) (checkouts.distinct.sublist (hsublist.map _))).1]

/-! ## Task manifests -/

/-- A manifest that a sweep should drop: a file named after a task that no live checkout
claims, not written for long. -/
def isDue (around : Surroundings) (live : List String) (entry : ManifestEntry) : Bool :=
  match Strings.stripSuffix entry.name manifestEnding with
  | none => false
  | some identity =>
    validTaskIdentity identity && identity ∉ live && entry.isFile &&
      taskManifestIsIdle around.now entry

variable {directory : ManifestDirectory} {removed : RemovedFiles} {entry : ManifestEntry}

private theorem pruneTaskManifest_of_not_due (state : RemovedFiles × ManifestDirectory)
    (hdue : isDue around live entry = false) :
    pruneTaskManifest around held dryRun live state entry = state := by
  unfold isDue at hdue
  unfold pruneTaskManifest
  cases hname : Strings.stripSuffix entry.name manifestEnding with
  | none => rfl
  | some identity =>
    rw [hname] at hdue
    simp only [Bool.and_eq_false_iff, decide_eq_false_iff_not, not_not] at hdue
    dsimp only
    split
    · rfl
    · rename_i hclaimed
      rw [if_pos]
      simp only [Bool.or_eq_true, Bool.not_eq_true', decide_eq_true_eq, not_or,
        Bool.not_eq_false] at hclaimed ⊢
      rcases hdue with ((hidentity | hlive) | hfile) | hidle
      · exact absurd hclaimed.1 (by simp [hidentity])
      · exact absurd hlive hclaimed.2
      · exact .inl hfile
      · exact .inr hidle

private theorem pruneTaskManifest_dry (hunlocked : ∀ identity, around.lockHeld identity = false)
    (hdue : isDue around live entry = true) :
    pruneTaskManifest around held true live (removed, directory) entry =
      (⟨removed.count + 1, removed.bytes + entry.bytes.length⟩, directory) := by
  unfold isDue at hdue
  unfold pruneTaskManifest
  cases hname : Strings.stripSuffix entry.name manifestEnding with
  | none => simp [hname] at hdue
  | some identity =>
    rw [hname] at hdue
    simp only [Bool.and_eq_true, decide_eq_true_eq] at hdue
    obtain ⟨⟨⟨hidentity, hlive⟩, hfile⟩, hidle⟩ := hdue
    dsimp only
    rw [if_neg (by simp [hidentity, hlive]), if_neg (by simp [hfile, hidle]), if_pos rfl, if_neg]
    rintro ⟨hlock, hnone⟩
    simp [ManifestDirectory.claimTaskManifestLock, directory.locksInside identity hlock,
      hunlocked] at hnone

/-- A sweep takes the lock of what is due and removes it, if there is a directory for locks. -/
theorem pruneTaskManifest_real (removed : RemovedFiles)
    (hunlocked : ∀ identity, around.lockHeld identity = false)
    (hfree : ∀ path, held path = false) (hlocks : directory.locksDirectory = true)
    (hentry : directory.find entry.name = some entry) (hdue : isDue around live entry = true) :
    let final := pruneTaskManifest around held false live (removed, directory) entry
    final.1 = ⟨removed.count + 1, removed.bytes + entry.bytes.length⟩ ∧
      final.2.entries = directory.entries.filter (fun other => other.name ≠ entry.name) ∧
      final.2.locksDirectory = true := by
  unfold isDue at hdue
  unfold pruneTaskManifest
  cases hname : Strings.stripSuffix entry.name manifestEnding with
  | none => simp [hname] at hdue
  | some identity =>
    rw [hname] at hdue
    simp only [Bool.and_eq_true, decide_eq_true_eq] at hdue
    obtain ⟨⟨⟨hidentity, hlive⟩, hfile⟩, hidle⟩ := hdue
    dsimp only
    rw [if_neg (by simp [hidentity, hlive]), if_neg (by simp [hfile, hidle]),
      if_neg Bool.noConfusion]
    unfold ManifestDirectory.find at hentry
    simp only [ManifestDirectory.claimTaskManifestLock, hlocks, hunlocked, dite_true,
      Bool.false_eq_true, if_false, removeLocked, ManifestDirectory.find, hentry, hfile, hidle,
      Bool.not_true, Bool.or_self, hfree, ManifestDirectory.erase, and_self]

private theorem pruneTaskManifest_unlockable (hlocks : directory.locksDirectory = false) :
    pruneTaskManifest around held false live (removed, directory) entry =
      (removed, directory) := by
  unfold pruneTaskManifest
  cases Strings.stripSuffix entry.name manifestEnding with
  | none => rfl
  | some identity =>
    dsimp only
    split
    · rfl
    · split
      · rfl
      · rw [if_neg Bool.noConfusion]
        simp [ManifestDirectory.claimTaskManifestLock, hlocks]

/-- The length of manifests. -/
def manifestBytes (entries : List ManifestEntry) : ℕ :=
  (entries.map fun entry => entry.bytes.length).sum

private theorem foldl_pruneTaskManifest_dry
    (hunlocked : ∀ identity, around.lockHeld identity = false)
    (entries : List ManifestEntry) (removed : RemovedFiles) :
    entries.foldl (pruneTaskManifest around held true live) (removed, directory) =
      (⟨removed.count + (entries.filter (isDue around live)).length,
        removed.bytes + manifestBytes (entries.filter (isDue around live))⟩, directory) := by
  induction entries generalizing removed with
  | nil => rfl
  | cons entry rest ih =>
    rw [List.foldl_cons]
    cases hdue : isDue around live entry with
    | false =>
      rw [pruneTaskManifest_of_not_due _ hdue, ih, List.filter_cons_of_neg (by simp [hdue])]
    | true =>
      rw [pruneTaskManifest_dry hunlocked hdue, ih, List.filter_cons_of_pos hdue,
        List.length_cons, manifestBytes, manifestBytes, List.map_cons, List.sum_cons]
      simp only [Nat.add_assoc, Nat.add_comm 1]

private theorem foldl_pruneTaskManifest_real
    (hunlocked : ∀ identity, around.lockHeld identity = false)
    (hfree : ∀ path, held path = false) (entries : List ManifestEntry) (removed : RemovedFiles)
    (hlocks : directory.locksDirectory = true)
    (hthere : ∀ entry ∈ entries, entry ∈ directory.entries)
    (hdistinct : (entries.map ManifestEntry.name).Nodup) :
    (entries.foldl (pruneTaskManifest around held false live) (removed, directory)).1 =
      ⟨removed.count + (entries.filter (isDue around live)).length,
        removed.bytes + manifestBytes (entries.filter (isDue around live))⟩ := by
  induction entries generalizing removed directory with
  | nil => rfl
  | cons entry rest ih =>
    rw [List.map_cons, List.nodup_cons] at hdistinct
    rw [List.foldl_cons]
    cases hdue : isDue around live entry with
    | false =>
      rw [pruneTaskManifest_of_not_due _ hdue, ih removed hlocks
        (fun other hother => hthere other (List.mem_cons_of_mem _ hother)) hdistinct.2,
        List.filter_cons_of_neg (by simp [hdue])]
    | true =>
      have hfind : directory.find entry.name = some entry := by
        have hmem := hthere entry List.mem_cons_self
        cases hfound : directory.find entry.name with
        | none =>
          exact absurd (decide_eq_true rfl) (List.find?_eq_none.mp hfound entry hmem)
        | some found =>
          have hname : found.name = entry.name := by simpa using List.find?_some hfound
          rw [List.inj_on_of_nodup_map directory.distinct (List.mem_of_find?_eq_some hfound) hmem
            hname]
      obtain ⟨hcount, hentries, hafter⟩ :=
        pruneTaskManifest_real removed hunlocked hfree hlocks hfind hdue
      generalize hfinal : pruneTaskManifest around held false live (removed, directory) entry =
        final at hcount hentries hafter
      obtain ⟨removed', directory'⟩ := final
      dsimp only at hcount hentries hafter
      rw [ih removed' hafter ?_ hdistinct.2, hcount, List.filter_cons_of_pos hdue,
        List.length_cons, manifestBytes, manifestBytes, List.map_cons, List.sum_cons]
      · simp only [Nat.add_assoc, Nat.add_comm 1]
      · intro other hother
        rw [hentries, List.mem_filter, decide_eq_true_eq]
        exact ⟨hthere other (List.mem_cons_of_mem _ hother),
          fun heq => hdistinct.1 (heq ▸ List.mem_map_of_mem hother)⟩

private theorem ManifestDirectory.entries_of_claim {identity : String} {locked : ManifestDirectory}
    (hclaim : directory.claimTaskManifestLock around identity = some locked) :
    locked.entries = directory.entries := by
  unfold claimTaskManifestLock at hclaim
  split at hclaim
  · split at hclaim
    · cases hclaim
    · cases hclaim
      rfl
  · cases hclaim

private theorem find_removeLocked {identity name : String} (hother : name ≠ entry.name)
    (state : RemovedFiles × ManifestDirectory) :
    (removeLocked around held entry identity state).2.find name = state.2.find name := by
  unfold removeLocked
  split
  · rfl
  · split
    · rfl
    · split
      · rfl
      · unfold ManifestDirectory.erase ManifestDirectory.find
        rw [List.find?_filter]
        congr 1
        funext other
        by_cases heq : other.name = name <;> simp [heq, hother]

private theorem find_pruneTaskManifest {task : String} (htask : task ∈ live)
    (state : RemovedFiles × ManifestDirectory) (entry : ManifestEntry) :
    (pruneTaskManifest around held dryRun live state entry).2.find (task ++ manifestEnding) =
      state.2.find (task ++ manifestEnding) := by
  unfold pruneTaskManifest
  cases hname : Strings.stripSuffix entry.name manifestEnding with
  | none => rfl
  | some identity =>
    dsimp only
    split
    · rfl
    rename_i hclaimed
    simp only [Bool.or_eq_true, Bool.not_eq_true', decide_eq_true_eq, not_or] at hclaimed
    have hother : task ++ manifestEnding ≠ entry.name := by
      intro heq
      rw [← heq, Strings.stripSuffix_eq_some.mpr rfl, Option.some.injEq] at hname
      exact hclaimed.2 (hname ▸ htask)
    split
    · rfl
    · split
      · split <;> rfl
      · split
        · rfl
        · rename_i locked hclaim
          rw [find_removeLocked hother, ManifestDirectory.find, ManifestDirectory.find,
            ManifestDirectory.entries_of_claim hclaim]

private theorem manifestActions_pruned (json : SweepJson) (around : Surroundings)
    (held : Path → Bool)
    (dryRun : Bool) (live : List String) (directory : ManifestDirectory) :
    manifestActions json live (pruneTaskManifests around held dryRun live directory).2 =
      manifestActions json live directory := by
  have hfind : ∀ task ∈ live, ∀ (entries : List ManifestEntry) state,
      (entries.foldl (pruneTaskManifest around held dryRun live) state).2.find
        (task ++ manifestEnding) = state.2.find (task ++ manifestEnding) := by
    intro task htask entries
    induction entries with
    | nil => exact fun state => rfl
    | cons entry rest ih =>
      intro state
      rw [List.foldl_cons, ih, find_pruneTaskManifest htask]
  unfold manifestActions
  apply List.flatMap_congr
  intro task htask
  unfold taskManifestActions pruneTaskManifests
  rw [hfind task htask]

/-! ## Sessions -/

private theorem FileTree.find_erase {other : Path} (hne : path ≠ other) :
    ((tree.erase other).files.find? fun file => file.path = path) =
      tree.files.find? fun file => file.path = path := by
  rw [erase, List.find?_filter]
  congr 1
  funext file
  by_cases heq : file.path = path <;> simp [heq, hne]

private theorem sessionIds_nodup (sessions : FileTree) : (sessionIds sessions).Nodup := by
  unfold sessionIds
  rw [(List.perm_insertionSort _ _).nodup_iff]
  -- The name of a stream is its session and the ending, so different streams differ in it.
  refine List.Pairwise.filterMap _ ?_ (List.pairwise_map.mp sessions.distinct)
  intro left right hne id hleft other hright heq
  subst heq
  split at hleft
  · rename_i name hname
    split at hright
    · rename_i name' hname'
      refine hne ?_
      rw [hname, hname', Strings.stripSuffix_eq_some.mp hleft,
        Strings.stripSuffix_eq_some.mp hright]
    · cases hright
  · cases hleft

private theorem foldl_pruneSession (hfree : ∀ path, held path = false)
    {retention : SessionRetention}
    {surplus : ℕ} (sessions : List (String × ℕ)) (hdistinct : (sessions.map Prod.fst).Nodup)
    {tree' : FileTree} (removed : RemovedFiles)
    (hsame : ∀ session ∈ sessions,
      (tree.files.find? fun file => file.path = [session.1 ++ streamEnding]) =
        tree'.files.find? fun file => file.path = [session.1 ++ streamEnding]) :
    (sessions.foldl (pruneSession around held true retention surplus) (removed, tree)).1 =
      (sessions.foldl (pruneSession around held false retention surplus) (removed, tree')).1 := by
  induction sessions generalizing removed tree' with
  | nil => rfl
  | cons session rest ih =>
    rw [List.map_cons, List.nodup_cons] at hdistinct
    have hrest := fun other hother => hsame other (List.mem_cons_of_mem _ hother)
    have hfirst := hsame session List.mem_cons_self
    rw [List.foldl_cons, List.foldl_cons]
    unfold pruneSession
    rw [hfirst]
    dsimp only
    cases hfound : tree'.files.find? fun file => file.path = [session.1 ++ streamEnding] with
    | none => exact ih hdistinct.2 removed hrest
    | some file =>
      dsimp only
      split
      · exact ih hdistinct.2 removed hrest
      · split
        · exact ih hdistinct.2 removed hrest
        · have hpath : file.path = [session.1 ++ streamEnding] := by
            simpa using List.find?_some hfound
          rw [removeCounted_of_mem hfree (List.mem_of_find?_eq_some hfound), removeCounted,
            if_pos rfl]
          refine ih hdistinct.2 _ fun other hother => ?_
          rw [hrest other hother, FileTree.find_erase]
          rw [hpath]
          intro heq
          have hids : other.1 = session.1 := by
            simpa using heq
          exact hdistinct.1 (hids ▸ List.mem_map_of_mem hother)

private theorem removedStreams_eq (around : Surroundings) (hfree : ∀ path, held path = false)
    (retention : SessionRetention) (sessions : FileTree) :
    (pruneSessions around held true retention sessions).1 =
      (pruneSessions around held false retention sessions).1 := by
  unfold pruneSessions
  refine foldl_pruneSession hfree _ ?_ ⟨0, 0⟩ fun _ _ => rfl
  rw [List.zipIdx_map_fst]
  exact sessionIds_nodup sessions

/-! ## The sweep -/

/-- The manifests that are due. -/
def dueManifests (json : SweepJson) (around : Surroundings) (store : SweptStore) :
    List ManifestEntry :=
  store.manifests.entries.filter
    (isDue around (scanCheckouts json around store.checkouts).liveIdentities)

/-- What the part of a sweep reports that looks at objects and results. -/
def collected (json : SweepJson) (around : Surroundings) (held : Path → Bool) (dryRun : Bool)
    (alreadyRemoved : Finset Path) (maxBytes : ℕ) (store : SweptStore) : GcOutcome :=
  (gcWithMode json.records held dryRun
    (manifestActions json (scanCheckouts json around store.checkouts).liveIdentities
      store.manifests) store.groupedActions alreadyRemoved maxBytes store.contents).1

section Outcome

variable (hfree : ∀ path, held path = false)
  (hunlocked : ∀ identity, around.lockHeld identity = false) {alreadyRemoved : Finset Path}
  {maxBytes : ℕ} {retention : SessionRetention} {store : SweptStore}

include hunlocked in
private theorem sweepWithMode_dry :
    (sweepWithMode json around held true alreadyRemoved maxBytes retention store).1 =
      let outcome := collected json around held true alreadyRemoved maxBytes store
      let records := (scanCheckouts json around store.checkouts).staleRecords.foldl
        (removeCounted held true) (⟨0, 0⟩, store.checkouts)
      let due := dueManifests json around store
      let streams := (pruneSessions around held true retention store.sessions).1
      ⟨outcome.removedObjects, outcome.removedActionResults, records.1.count, due.length,
        streams.count, manifestBytes due + outcome.removedBytes + streams.bytes,
        outcome.remainingBytes⟩ := by
  dsimp only [sweepWithMode]
  rw [manifestActions_pruned, pruneTaskManifests, foldl_pruneTaskManifest_dry hunlocked]
  simp only [Nat.zero_add]
  rfl

include hfree hunlocked in
/-- What a sweep reports: what its dry run reports, except that manifests stay where there is
no directory for locks. -/
theorem sweepWithMode_real :
    (sweepWithMode json around held false alreadyRemoved maxBytes retention store).1 =
      let outcome := collected json around held false alreadyRemoved maxBytes store
      let records := (scanCheckouts json around store.checkouts).staleRecords.foldl
        (removeCounted held true) (⟨0, 0⟩, store.checkouts)
      let due := if store.manifests.locksDirectory then dueManifests json around store else []
      let streams := (pruneSessions around held true retention store.sessions).1
      ⟨outcome.removedObjects, outcome.removedActionResults, records.1.count, due.length,
        streams.count, manifestBytes due + outcome.removedBytes + streams.bytes,
        outcome.remainingBytes⟩ := by
  dsimp only [sweepWithMode]
  rw [manifestActions_pruned, removedRecords_eq json around hfree, removedStreams_eq around hfree]
  have hpruned : (pruneTaskManifests around held false
      (scanCheckouts json around store.checkouts).liveIdentities store.manifests).1 =
      let due := if store.manifests.locksDirectory then dueManifests json around store else []
      ⟨due.length, manifestBytes due⟩ := by
    unfold pruneTaskManifests
    cases hlocks : store.manifests.locksDirectory with
    | true =>
      rw [foldl_pruneTaskManifest_real hunlocked hfree _ _ hlocks (fun _ hentry => hentry)
        store.manifests.distinct]
      simp only [Nat.zero_add, if_true]
      rfl
    | false =>
      have hstays : ∀ entries : List ManifestEntry, entries.foldl (pruneTaskManifest around held
          false (scanCheckouts json around store.checkouts).liveIdentities)
            (⟨0, 0⟩, store.manifests) = (⟨0, 0⟩, store.manifests) := by
        intro entries
        induction entries with
        | nil => rfl
        | cons entry rest ih => rw [List.foldl_cons, pruneTaskManifest_unlockable hlocks, ih]
      rw [hstays]
      rfl
  rw [hpruned]
  rfl

include hfree in
private theorem collected_dry : collected json around held true ∅ maxBytes store =
    collected json around held false ∅ maxBytes store :=
  gcWithMode_preview hfree ⟨by simp, by simp⟩ fun _ _ _ => Iff.rfl

end Outcome

/-- A dry run reports what the sweep reports exactly if the directory for the locks of task
manifests is there, or no manifest is due. -/
theorem sweepWithMode_dry_iff (json : SweepJson) (around : Surroundings) (held : Path → Bool)
    (maxBytes : ℕ) (retention : SessionRetention) (store : SweptStore)
    (hfree : ∀ path, held path = false)
    (hunlocked : ∀ identity, around.lockHeld identity = false) :
    let dry := (sweepWithMode json around held true ∅ maxBytes retention store).1
    let real := (sweepWithMode json around held false ∅ maxBytes retention store).1
    (dry.removedObjects = real.removedObjects ∧
      dry.removedActionResults = real.removedActionResults ∧
      dry.removedCheckoutRecords = real.removedCheckoutRecords ∧
      dry.removedTaskManifests = real.removedTaskManifests ∧
      dry.remainingBytes = real.remainingBytes) ↔
    store.manifests.locksDirectory = true ∨
      ∀ entry ∈ store.manifests.entries,
        isDue around (scanCheckouts json around store.checkouts).liveIdentities entry = false := by
  dsimp only
  rw [sweepWithMode_dry hunlocked, sweepWithMode_real hfree hunlocked, collected_dry hfree]
  simp only [true_and, and_true]
  cases store.manifests.locksDirectory with
  | true => simp
  | false =>
    simp [dueManifests, List.filter_eq_nil_iff]

/-! ## A manifest that no sweep can lock -/

/-- Two days after the epoch, with no checkout on disk and no other process. -/
def quietAround : Surroundings where
  now := 172800000000000
  checkoutIsLiveOn _ := false
  lockHeld _ := false
  sessionIsLive _ := false

/-- A JSON library that reads the records of a result, and nothing else. -/
def quietJson : SweepJson where
  records := silentJson
  checkout _ := none
  manifest _ := none
  text := ⟨fun _ => false, fun _ => 0, id⟩

/-- A store with a result and an old manifest that nobody claims, with a directory for locks
or without. -/
def idleStore (locksDirectory : Bool) : SweptStore where
  contents := silentContents
  checkouts := ⟨[], List.nodup_nil⟩
  manifests :=
    { entries := [⟨String.ofList (List.replicate 64 'a') ++ manifestEnding, true, [1, 2], 0⟩]
      locks := ∅
      locksDirectory
      distinct := List.nodup_singleton _
      locksInside := by simp }
  sessions := ⟨[], List.nodup_nil⟩
  groupedActions := []

/-- With a directory for locks the dry run reports what the sweep removes: here one object, no
result and one manifest. -/
theorem sweepWithMode_dry_iff_locked :
    let dry := (sweepWithMode quietJson quietAround (fun _ => false) true ∅ 3 ⟨none, none⟩
      (idleStore true)).1
    let real := (sweepWithMode quietJson quietAround (fun _ => false) false ∅ 3 ⟨none, none⟩
      (idleStore true)).1
    (dry.removedObjects = 1 ∧ dry.removedTaskManifests = 1) ∧
    (dry.removedObjects = real.removedObjects ∧
      dry.removedActionResults = real.removedActionResults ∧
      dry.removedCheckoutRecords = real.removedCheckoutRecords ∧
      dry.removedTaskManifests = real.removedTaskManifests ∧
      dry.remainingBytes = real.remainingBytes) :=
  ⟨by decide +kernel, (sweepWithMode_dry_iff quietJson quietAround _ 3 ⟨none, none⟩
    (idleStore true) (fun _ => rfl) (fun _ => rfl)).mpr (.inl rfl)⟩

/-- Without a directory for locks the dry run counts a manifest that the sweep leaves. -/
theorem sweepWithMode_counts_unlockable :
    (∀ identity, quietAround.lockHeld identity = false) ∧
    (sweepWithMode quietJson quietAround (fun _ => false) true ∅ 3 ⟨none, none⟩
      (idleStore false)).1.removedTaskManifests = 1 ∧
    (sweepWithMode quietJson quietAround (fun _ => false) false ∅ 3 ⟨none, none⟩
      (idleStore false)).1.removedTaskManifests = 0 :=
  ⟨fun _ => rfl, by decide +kernel, by decide +kernel⟩

end MrBoxington.Store
