import Mathlib.Algebra.BigOperators.Group.List.Lemmas
import Mathlib.Algebra.Order.Ring.Nat
import Mathlib.Data.List.Sort
import MrBoxington.Lib.MemoCheck
import MrBoxington.Lib.Walk
import MrBoxington.Store.Closure

/-!
# Collecting a store

A store over its budget loses objects until it fits: first those that no live build
depends on, and the least recently used first. After that the results whose objects
are gone are dropped. A dry run reports the same without removing anything.
-/

namespace MrBoxington.Store

open Protocol (Bytes Digest ActionResult RecordJson)

/-! ## Files -/

/-- A file with its last use. -/
structure StoredFile where
  path : Path
  bytes : Bytes
  used : ℤ
deriving DecidableEq

/-- The length of a file. -/
def StoredFile.size (file : StoredFile) : ℕ := file.bytes.length

/-- The files below a directory, in the order in which they are listed. -/
structure FileTree where
  files : List StoredFile
  distinct : (files.map StoredFile.path).Nodup

namespace FileTree

/-- The contents of the file at a path. -/
def read (tree : FileTree) : Files := fun path =>
  (tree.files.find? fun file => file.path = path).map StoredFile.bytes

/-- The tree without the file at a path. -/
def erase (tree : FileTree) (path : Path) : FileTree where
  files := tree.files.filter fun file => file.path ≠ path
  distinct := tree.distinct.sublist (List.filter_sublist.map _)

end FileTree

/-- The objects and the action results of a store. -/
structure Contents where
  objects : FileTree
  results : FileTree

/-! ## Objects that live builds depend on -/

section Rooted

variable (json : RecordJson) (contents : Contents)

/-- The result of an action, if it is there and can be read. -/
def readActionResult (action : Digest) : Option ActionResult :=
  ((resultPath action).bind contents.results.read).bind json.actionResult

/-- A digest roots the path of its object. -/
def rootDigest (rooted : Finset Path) (digest : Digest) : Finset Path :=
  match objectPath digest with
  | some path => insert path rooted
  | none => rooted

/-- How many directories all directory objects name, and one more. -/
def treeFuel : ℕ :=
  1 + (contents.objects.files.map fun file =>
    match json.directory file.bytes with
    | some directory => directory.directories.length
    | none => 0).sum

/-- A directory roots its files and the directories in it, which are visited next. -/
def rootDirectory (rooted : Finset Path) (digest : Digest) :
    Except Empty (Finset Path × List Digest) :=
  let files := fileDigests json contents.objects.read digest
  let directories := subdirectories json contents.objects.read digest
  .ok (directories.foldl rootDigest (files.foldl rootDigest rooted), directories)

/-- Root a whole output tree. -/
def rootTree (visited : Finset Digest) (rooted : Finset Path) (root : Digest) :
    Finset Digest × Finset Path :=
  match Walk.walk (rootDirectory json contents) (treeFuel json contents) visited rooted [root] with
  | .ok outcome => outcome
  | .error e => nomatch e

/-- Root everything that restoring one action reads. -/
def rootAction (state : Finset Digest × Finset Path) (action : Digest) :
    Finset Digest × Finset Path :=
  match readActionResult json contents action with
  | none => state
  | some result =>
    let rooted := rootDigest state.2 result.action
    let rooted := match result.metadata with
      | none => rooted
      | some metadata =>
        let rooted := rootDigest rooted metadata
        match readRustcMetadata json contents.objects.read metadata with
        | none => rooted
        | some rustc => rootDigest (rootDigest rooted rustc.stdout) rustc.stderr
    match result.outputRoot with
    | none => (state.1, rooted)
    | some root => rootTree json contents state.1 (rootDigest rooted root) root

/-- The paths of everything that restoring some actions reads. -/
def rootedActionObjects (actions : List Digest) : Finset Path :=
  (actions.foldl (rootAction json contents) (∅, ∅)).2

end Rooted

/-! ## Evicting objects -/

/-- What became of an attempt to remove a file. -/
inductive Removal where
  | removed
  | missing
  | blocked
deriving DecidableEq

/-- Remove a file unless another process holds it. -/
def remove (held : Path → Bool) (tree : FileTree) (path : Path) : Removal × FileTree :=
  if (tree.read path).isNone then (.missing, tree)
  else if held path then (.blocked, tree)
  else (.removed, tree.erase path)

/-- What an eviction did. -/
structure ObjectEvictions where
  removedObjects : ℕ
  removedBytes : ℕ
  remainingBytes : ℕ
deriving DecidableEq

/-- Remove files from the front of a list until the rest fits. Once a file that nothing
depends on could not be removed, files that a live build depends on stay. -/
def evictObjects {σ : Type*} (rooted : Finset Path) (maxBytes : ℕ)
    (removeFile : σ → Path → Removal × σ) :
    List StoredFile → ℕ → Bool → ObjectEvictions → σ → ObjectEvictions × σ
  | [], liveBytes, _, outcome, state => ({ outcome with remainingBytes := liveBytes }, state)
  | entry :: rest, liveBytes, blockedUnrooted, outcome, state =>
    if liveBytes ≤ maxBytes ∨ (entry.path ∈ rooted ∧ blockedUnrooted) then
      ({ outcome with remainingBytes := liveBytes }, state)
    else
      match removeFile state entry.path with
      | (.removed, state) =>
        evictObjects rooted maxBytes removeFile rest (liveBytes - entry.size) blockedUnrooted
          { outcome with
            removedObjects := outcome.removedObjects + 1
            removedBytes := outcome.removedBytes + entry.size } state
      | (.missing, state) =>
        evictObjects rooted maxBytes removeFile rest (liveBytes - entry.size) blockedUnrooted
          outcome state
      | (.blocked, state) =>
        evictObjects rooted maxBytes removeFile rest liveBytes
          (blockedUnrooted || entry.path ∉ rooted) outcome state

/-- The order of eviction: what nothing depends on first, and by last use. -/
def EvictedBefore (rooted : Finset Path) (left right : StoredFile) : Prop :=
  (left.path ∉ rooted ∧ right.path ∈ rooted) ∨
    ((left.path ∈ rooted ↔ right.path ∈ rooted) ∧ left.used ≤ right.used)

instance (rooted : Finset Path) : DecidableRel (EvictedBefore rooted) := fun left right =>
  inferInstanceAs (Decidable ((left.path ∉ rooted ∧ right.path ∈ rooted) ∨
    ((left.path ∈ rooted ↔ right.path ∈ rooted) ∧ left.used ≤ right.used)))

/-- The objects in the order of eviction. -/
def evictionOrder (rooted : Finset Path) (objects : List StoredFile) : List StoredFile :=
  objects.insertionSort (EvictedBefore rooted)

/-! ## Results without their objects -/

section Dangling

variable (json : RecordJson) (objects : FileTree) (virtuallyRemoved : Finset Path)

/-- An object is gone, or counts as gone. -/
def missing (digest : Digest) : Bool :=
  match objectPath digest with
  | some path => path ∈ virtuallyRemoved || (objects.read path).isNone
  | none => true

/-- Whether everything below a directory is there, remembering verdicts. A directory
that cannot be read counts as complete. -/
def treeIsComplete (trees : MemoCheck.Memo Digest) (digest : Digest) :
    Bool × MemoCheck.Memo Digest :=
  MemoCheck.check
    (fun directory => (fileDigests json objects.read directory).all fun file =>
      !missing objects virtuallyRemoved file)
    (fun child => !missing objects virtuallyRemoved child)
    (subdirectories json objects.read) (objects.files.length + 1) trees digest

/-- Whether a result names an object that is gone. -/
def actionResultBytesAreDangling (bytes : Bytes) (walkTree : Bool)
    (trees : MemoCheck.Memo Digest) : Bool × MemoCheck.Memo Digest :=
  match json.actionResult bytes with
  | none => (false, trees)
  | some result =>
    if [some result.action, result.metadata, result.outputRoot].reduceOption.any
        (missing objects virtuallyRemoved) then (true, trees)
    else
      match walkTree, result.outputRoot with
      | true, some outputRoot =>
        let (complete, trees) := treeIsComplete json objects virtuallyRemoved trees outputRoot
        (!complete, trees)
      | _, _ => (false, trees)

/-- Whether the result at a path names an object that is gone. -/
def actionResultIsDangling (results : FileTree) (path : Path) (walkTree : Bool)
    (trees : MemoCheck.Memo Digest) : Bool × MemoCheck.Memo Digest :=
  match results.read path with
  | none => (false, trees)
  | some bytes =>
    actionResultBytesAreDangling json objects virtuallyRemoved bytes walkTree trees

end Dangling

/-! ## The collection -/

/-- What a collection did. -/
structure GcOutcome where
  removedObjects : ℕ
  removedActionResults : ℕ
  removedBytes : ℕ
  remainingBytes : ℕ
deriving DecidableEq

/-- The state of a pass over the results. -/
structure ResultPass where
  results : FileTree
  trees : MemoCheck.Memo Digest
  liveBytes : ℕ
  removedActionResults : ℕ
  removedBytes : ℕ

section Gc

variable (json : RecordJson) (held : Path → Bool) (dryRun : Bool)

/-- Claim a result that dangles and remove it, unless it turns out under the claim that
it does not dangle. No remembered verdict counts there. -/
def claimAndRemove (objects : FileTree) (virtuallyRemoved : Finset Path) (walkTrees : Bool)
    (results : FileTree) (path : Path) : Option (Removal × FileTree) :=
  if held path then some (.blocked, results)
  else
    match results.read path with
    | none => some (.missing, results)
    | some bytes =>
      if (actionResultBytesAreDangling json objects virtuallyRemoved bytes walkTrees
          fun _ => none).1 then some (remove held results path)
      else none

/-- Drop one result if an object of it is gone. -/
def dropDangling (objects : FileTree) (virtuallyRemoved : Finset Path) (walkTrees : Bool)
    (pass : ResultPass) (entry : StoredFile) : ResultPass :=
  match actionResultIsDangling json objects virtuallyRemoved pass.results entry.path walkTrees
    pass.trees with
  | (false, trees) => { pass with trees }
  | (true, trees) =>
    let removal := if dryRun then some (.removed, pass.results)
      else claimAndRemove json held objects virtuallyRemoved walkTrees pass.results entry.path
    match removal with
    | none => { pass with trees }
    | some (.removed, results) =>
      { results
        trees
        liveBytes := pass.liveBytes - entry.size
        removedActionResults := pass.removedActionResults + 1
        removedBytes := pass.removedBytes + entry.size }
    | some (.missing, results) =>
      { pass with results, trees, liveBytes := pass.liveBytes - entry.size }
    | some (.blocked, results) => { pass with results, trees }

/-- Evict objects if the store is over its budget. The actions are those of the manifests
of live checkouts and of grouped receipts that wait for their export. -/
def evictOverBudget (manifestActions groupedActions : List Digest) (alreadyRemoved : Finset Path)
    (maxBytes : ℕ) (contents : Contents) : ObjectEvictions × FileTree × Finset Path :=
  let objects := contents.objects.files.filter fun file => file.path ∉ alreadyRemoved
  let results := contents.results.files.filter fun file => file.path ∉ alreadyRemoved
  let liveBytes := ((objects ++ results).map StoredFile.size).sum
  if maxBytes < liveBytes then
    let rooted := rootedActionObjects json contents manifestActions ∪
      rootedActionObjects json contents groupedActions
    evictObjects rooted maxBytes (fun (state : FileTree × Finset Path) path =>
        if dryRun then (.removed, state.1, insert path state.2)
        else ((remove held state.1 path).1, (remove held state.1 path).2, state.2))
      (evictionOrder rooted objects) liveBytes false ⟨0, 0, liveBytes⟩
      (contents.objects, alreadyRemoved)
  else (⟨0, 0, liveBytes⟩, contents.objects, alreadyRemoved)

/-- Collect a store. Output trees are walked only if this collection evicted something. -/
def gcWithMode (manifestActions groupedActions : List Digest) (alreadyRemoved : Finset Path)
    (maxBytes : ℕ) (contents : Contents) : GcOutcome × Contents :=
  let results := contents.results.files.filter fun file => file.path ∉ alreadyRemoved
  let (evicted, objects, virtuallyRemoved) :=
    evictOverBudget json held dryRun manifestActions groupedActions alreadyRemoved maxBytes contents
  let pass := results.foldl
    (dropDangling json held dryRun objects virtuallyRemoved (0 < evicted.removedObjects))
    ⟨contents.results, fun _ => none, evicted.remainingBytes, 0, 0⟩
  (⟨evicted.removedObjects, pass.removedActionResults, evicted.removedBytes + pass.removedBytes,
    pass.liveBytes⟩, ⟨objects, pass.results⟩)

end Gc

end MrBoxington.Store
