import MrBoxington.Lib.LockFile
import MrBoxington.Lib.Runs

/-!
# The lock of a task manifest

Commits and imports change a task's manifest under its lock file: they open the
lock file, creating it if needed, wait for its lock, load the manifest, merge,
and persist the result. The store collector drops a manifest that no checkout
claims under the same lock, and then unlinks the lock file itself. It also
unlinks lock files whose manifest is gone. Every file operation is one step.
-/

namespace MrBoxington.TaskManifest

open LockFile (Disk Op)

/-- What a commit or an import persists, given the manifest it loaded. Nothing is
persisted when the merge fails or changes nothing. -/
abbrev Merge (M : Type) := Option M → Option M

/-- What the collector claims a lock for. -/
inductive Prune where
  | manifest
  | loneLock
  | preview

/-- Where a process stands. -/
inductive LockPhase (M : Type) where
  | idle
  | opening (merge : Merge M)
  | waiting (merge : Merge M) (inode : ℕ)
  | entered (merge : Merge M) (inode : ℕ)
  | loaded (merge : Merge M) (inode : ℕ) (manifest : Option M)
  | leaving (inode : ℕ)
  | probing (prune : Prune)
  | trying (prune : Prune) (inode : ℕ)
  | pruning (prune : Prune) (inode : ℕ)
  /-- About to drop the lock, and to unlink the lock file afterwards if `unlinks`. -/
  | releasing (inode : ℕ) (unlinks : Bool)
  | unlinking

namespace LockPhase

variable {M : Type}

/-- The inode of the lock file open in a phase. -/
def handle : LockPhase M → Option ℕ
  | waiting _ inode => some inode
  | entered _ inode => some inode
  | loaded _ inode _ => some inode
  | leaving inode => some inode
  | trying _ inode => some inode
  | pruning _ inode => some inode
  | releasing inode _ => some inode
  | _ => none

/-- The inode locked in a phase. -/
def locked : LockPhase M → Option ℕ
  | entered _ inode => some inode
  | loaded _ inode _ => some inode
  | leaving inode => some inode
  | pruning _ inode => some inode
  | releasing inode _ => some inode
  | _ => none

/-- Inside the section that loads, merges and persists. -/
def Inside : LockPhase M → Prop
  | entered _ _ => True
  | loaded _ _ _ => True
  | leaving _ => True
  | _ => False

end LockPhase

/-- The lock file and the manifest of one task, and the processes that use them. -/
structure LockState (π M : Type) where
  disk : Disk π
  manifest : Option M
  manifestIdle : Bool
  /-- The file that the lock path names is older than the grace period. -/
  lockIdle : Bool
  phase : π → LockPhase M

section Steps

variable {π M : Type} [DecidableEq π]

/-- The state after process `p` moves to another phase. -/
def LockState.enter (s : LockState π M) (p : π) (phase : LockPhase M) : LockState π M :=
  { s with phase := Function.update s.phase p phase }

/-- The state after process `p` also worked on the lock file. -/
def LockState.move (s : LockState π M) (p : π) (disk : Disk π) (phase : LockPhase M) :
    LockState π M :=
  { s with disk := disk, phase := Function.update s.phase p phase }

/-- The state after process `p` created the lock file. -/
def LockState.create (s : LockState π M) (p : π) (phase : LockPhase M) : LockState π M :=
  { s with
    disk := s.disk.create p
    lockIdle := false
    phase := Function.update s.phase p phase }

/-- The state after process `p` persisted a manifest. -/
def LockState.persist (s : LockState π M) (p : π) (manifest : M) (phase : LockPhase M) :
    LockState π M :=
  { s with
    manifest := some manifest
    manifestIdle := false
    phase := Function.update s.phase p phase }

/-- The state after process `p` removed the manifest. -/
def LockState.discard (s : LockState π M) (p : π) (phase : LockPhase M) : LockState π M :=
  { s with manifest := none, phase := Function.update s.phase p phase }

/-- One step of process `p`. -/
inductive LockStep (p : π) : LockState π M → LockState π M → Prop
  | start {s} (merge : Merge M) (hphase : s.phase p = .idle) :
      LockStep p s (s.enter p (.opening merge))
  | openLock {s merge inode} (hphase : s.phase p = .opening merge)
      (hpath : s.disk.path = some inode) :
      LockStep p s (s.move p (s.disk.openAt p inode) (.waiting merge inode))
  | createLock {s merge} (hphase : s.phase p = .opening merge) (hpath : s.disk.path = none) :
      LockStep p s (s.create p (.waiting merge s.disk.next))
  | takeLock {s merge inode} (hphase : s.phase p = .waiting merge inode)
      (hfree : s.disk.holder inode = none) :
      LockStep p s (s.move p (s.disk.lock p inode) (.entered merge inode))
  | load {s merge inode} (hphase : s.phase p = .entered merge inode) :
      LockStep p s (s.enter p (.loaded merge inode s.manifest))
  | persist {s merge inode manifest merged} (hphase : s.phase p = .loaded merge inode manifest)
      (hmerge : merge manifest = some merged) :
      LockStep p s (s.persist p merged (.leaving inode))
  | keep {s merge inode manifest} (hphase : s.phase p = .loaded merge inode manifest)
      (hmerge : merge manifest = none) : LockStep p s (s.enter p (.leaving inode))
  | unlock {s inode} (hphase : s.phase p = .leaving inode) :
      LockStep p s (s.move p (s.disk.close p) .idle)
  | findManifest {s} (hphase : s.phase p = .idle) (hmanifest : s.manifest.isSome)
      (hidle : s.manifestIdle) : LockStep p s (s.enter p (.probing .manifest))
  /-- Collector, in a dry run: find an idle manifest that has a lock file. -/
  | findPreview {s} (hphase : s.phase p = .idle) (hmanifest : s.manifest.isSome)
      (hidle : s.manifestIdle) (hpath : s.disk.path.isSome) :
      LockStep p s (s.enter p (.probing .preview))
  | findLock {s} (hphase : s.phase p = .idle) (hmanifest : s.manifest = none)
      (hpath : s.disk.path.isSome) (hidle : s.lockIdle) :
      LockStep p s (s.enter p (.probing .loneLock))
  | probe {s prune inode} (hphase : s.phase p = .probing prune)
      (hpath : s.disk.path = some inode) :
      LockStep p s (s.move p (s.disk.openAt p inode) (.trying prune inode))
  | probeCreate {s prune} (hphase : s.phase p = .probing prune) (hpath : s.disk.path = none) :
      LockStep p s (s.create p (.trying prune s.disk.next))
  | claim {s prune inode} (hphase : s.phase p = .trying prune inode)
      (hfree : s.disk.holder inode = none) :
      LockStep p s (s.move p (s.disk.lock p inode) (.pruning prune inode))
  /-- Somebody holds the lock: leave the manifest and the lock file alone. -/
  | skip {s prune inode} (hphase : s.phase p = .trying prune inode)
      (hheld : s.disk.holder inode ≠ none) : LockStep p s (s.move p (s.disk.close p) .idle)
  | removeManifest {s inode} (hphase : s.phase p = .pruning .manifest inode)
      (hmanifest : s.manifest.isSome) (hidle : s.manifestIdle) :
      LockStep p s (s.discard p (.releasing inode true))
  | keepManifest {s inode} (hphase : s.phase p = .pruning .manifest inode) :
      LockStep p s (s.enter p (.releasing inode false))
  | removeLock {s inode} (hphase : s.phase p = .pruning .loneLock inode) :
      LockStep p s (s.enter p (.releasing inode true))
  | keepPreview {s inode} (hphase : s.phase p = .pruning .preview inode) :
      LockStep p s (s.enter p (.releasing inode false))
  | release {s inode} (hphase : s.phase p = .releasing inode true) :
      LockStep p s (s.move p (s.disk.close p) .unlinking)
  | releaseKeep {s inode} (hphase : s.phase p = .releasing inode false) :
      LockStep p s (s.move p (s.disk.close p) .idle)
  | unlink {s} (hphase : s.phase p = .unlinking) : LockStep p s (s.move p s.disk.unlink .idle)
  | abort {s} : LockStep p s (s.move p (s.disk.close p) .idle)
  | ageManifest {s} : LockStep p s { s with manifestIdle := true }
  | ageLock {s} : LockStep p s { s with lockIdle := true }

/-- Some process takes a step. -/
def LockStepAny (s t : LockState π M) : Prop := ∃ p, LockStep p s t

/-- Some process takes a step that does not unlink the lock file while a process
has it open. -/
def QuietLockStep (s t : LockState π M) : Prop :=
  ∃ p, LockStep p s t ∧ LockFile.Quiet s.disk t.disk

/-- Nobody has started, whatever manifest and lock file are there. -/
structure LockState.Initial (s : LockState π M) : Prop where
  phase : ∀ p, s.phase p = .idle
  opened : s.disk.Unused
  holder : ∀ i, s.disk.holder i = none
  path : ∀ i, s.disk.path = some i → i < s.disk.next

end Steps

end MrBoxington.TaskManifest
