import MrBoxington.Lib.LockPhases
import MrBoxington.TaskManifest.Locking

/-!
# When the manifest lock excludes

The collector drops the lock before it unlinks the lock file. A process that had
the file open then holds the lock of an inode without a name, while the next one
creates and locks a new file, and both are inside. As long as no lock file is
unlinked under an open handle, at most one process is inside, and what it
persists was merged from the manifest that is still on disk.
-/

namespace MrBoxington.TaskManifest

open LockFile (Phases)

/-- The handles and locks of the phases. -/
def lockPhases (M : Type) : Phases (LockPhase M) := ⟨LockPhase.handle, LockPhase.locked⟩

variable {π M : Type} {s t : LockState π M} {p q : π}

private theorem LockPhase.exists_locked {phase : LockPhase M} (hinside : phase.Inside) :
    ∃ i, phase.locked = some i := by
  cases phase with
  | entered merge inode => exact ⟨inode, rfl⟩
  | loaded merge inode manifest => exact ⟨inode, rfl⟩
  | leaving inode => exact ⟨inode, rfl⟩
  | _ => exact hinside.elim

/-- What holds in every state of a quiet run. -/
structure QuietInv (s : LockState π M) : Prop where
  /-- Handles and locks are those of the phases, on the inode that the path names. -/
  settled : (lockPhases M).Settled s.disk s.phase
  current : ∀ p merge inode manifest, s.phase p = .loaded merge inode manifest →
    s.manifest = manifest

private theorem QuietInv.of_initial (hinitial : s.Initial) : QuietInv s where
  settled := .of_unused hinitial.path hinitial.opened hinitial.holder
    (fun p => by rw [hinitial.phase p]; rfl) (fun p => by rw [hinitial.phase p]; rfl)
  current p merge inode manifest h := absurd ((hinitial.phase p).symm.trans h) (by simp)

variable [DecidableEq π]

private theorem LockStep.tracked (hstep : LockStep p s t) :
    ∃ ψ, t.phase = Function.update s.phase p ψ ∧
      (lockPhases M).Step p s.disk (s.phase p) t.disk ψ := by
  cases hstep with
  | start _ hphase => exact ⟨_, rfl, hphase ▸ .stay rfl (fun _ h => h)⟩
  | openLock hphase hpath => exact ⟨_, rfl, hphase ▸ .openAt hpath rfl rfl rfl⟩
  | createLock hphase hpath => exact ⟨_, rfl, hphase ▸ .create hpath rfl rfl rfl⟩
  | takeLock hphase hfree => exact ⟨_, rfl, hphase ▸ .lock rfl hfree rfl rfl⟩
  | load hphase => exact ⟨_, rfl, hphase ▸ .stay rfl (fun _ h => h)⟩
  | persist hphase => exact ⟨_, rfl, hphase ▸ .stay rfl (fun _ h => h)⟩
  | keep hphase => exact ⟨_, rfl, hphase ▸ .stay rfl (fun _ h => h)⟩
  | unlock => exact ⟨_, rfl, .close rfl rfl⟩
  | findManifest hphase => exact ⟨_, rfl, hphase ▸ .stay rfl (fun _ h => h)⟩
  | findPreview hphase => exact ⟨_, rfl, hphase ▸ .stay rfl (fun _ h => h)⟩
  | findLock hphase => exact ⟨_, rfl, hphase ▸ .stay rfl (fun _ h => h)⟩
  | probe hphase hpath => exact ⟨_, rfl, hphase ▸ .openAt hpath rfl rfl rfl⟩
  | probeCreate hphase hpath => exact ⟨_, rfl, hphase ▸ .create hpath rfl rfl rfl⟩
  | claim hphase hfree => exact ⟨_, rfl, hphase ▸ .lock rfl hfree rfl rfl⟩
  | skip => exact ⟨_, rfl, .close rfl rfl⟩
  | removeManifest hphase => exact ⟨_, rfl, hphase ▸ .stay rfl (fun _ h => h)⟩
  | keepManifest hphase => exact ⟨_, rfl, hphase ▸ .stay rfl (fun _ h => h)⟩
  | removeLock hphase => exact ⟨_, rfl, hphase ▸ .stay rfl (fun _ h => h)⟩
  | keepPreview hphase => exact ⟨_, rfl, hphase ▸ .stay rfl (fun _ h => h)⟩
  | release => exact ⟨_, rfl, .close rfl rfl⟩
  | releaseKeep => exact ⟨_, rfl, .close rfl rfl⟩
  | unlink hphase => exact ⟨_, rfl, hphase ▸ .unlink rfl (fun _ h => h)⟩
  | abort => exact ⟨_, rfl, .close rfl rfl⟩
  | ageManifest => exact ⟨_, (Function.update_eq_self _ _).symm, .stay rfl (fun _ h => h)⟩
  | ageLock => exact ⟨_, (Function.update_eq_self _ _).symm, .stay rfl (fun _ h => h)⟩

private theorem LockStep.manifest_locked (hstep : LockStep p s t)
    (hchange : t.manifest ≠ s.manifest) :
    ∃ i, (s.phase p).locked = some i := by
  cases hstep with
  | persist hphase => exact ⟨_, by rw [hphase]; rfl⟩
  | removeManifest hphase => exact ⟨_, by rw [hphase]; rfl⟩
  | _ => exact absurd rfl hchange

/-- A process that has loaded the manifest did so in this step, or stayed where it
was; the manifest did not change under it. -/
theorem LockStep.loaded (hstep : LockStep p s t) {merge : Merge M} {inode : ℕ}
    {manifest : Option M} (hloaded : t.phase p = .loaded merge inode manifest) :
    t.manifest = s.manifest ∧
      (s.manifest = manifest ∨ s.phase p = .loaded merge inode manifest) := by
  cases hstep with
  | load hphase =>
    simp only [LockState.enter, Function.update_self, LockPhase.loaded.injEq] at hloaded
    exact ⟨rfl, Or.inl hloaded.2.2⟩
  | ageManifest => exact ⟨rfl, Or.inr hloaded⟩
  | ageLock => exact ⟨rfl, Or.inr hloaded⟩
  | _ => exact absurd ((Function.update_self _ _ _).symm.trans hloaded) (by simp)

private theorem QuietInv.step (hinv : QuietInv s) (hstep : QuietLockStep s t) : QuietInv t := by
  obtain ⟨p, hstep, hquiet⟩ := hstep
  obtain ⟨ψ, hupdate, htracked⟩ := hstep.tracked
  refine ⟨hupdate ▸ hinv.settled.step htracked hquiet, fun q merge inode manifest hloaded => ?_⟩
  by_cases hqp : q = p
  · subst hqp
    obtain ⟨hsame, hnow | hbefore⟩ := hstep.loaded hloaded
    · exact hsame.trans hnow
    · exact hsame.trans (hinv.current q _ _ _ hbefore)
  · rw [hupdate, Function.update_of_ne hqp] at hloaded
    rw [← hinv.current q _ _ _ hloaded]
    -- A change of the manifest would put a second process under the lock.
    by_contra hchange
    obtain ⟨i, hlocked⟩ := hstep.manifest_locked hchange
    have hlocked' : (s.phase q).locked = some inode := by rw [hloaded]; rfl
    exact hqp (hinv.settled.unique hlocked' hlocked)

/-- In every run in which no lock file is unlinked while a process has it open, at
most one process at a time is inside the section that loads, merges and persists
the manifest, and whatever a process has loaded is still the manifest on disk when
it persists. -/
theorem quietReachable_exclusive
    (hreach : Runs.Reachable LockState.Initial QuietLockStep s) :
    (∀ p q, (s.phase p).Inside → (s.phase q).Inside → p = q) ∧
    ∀ p merge inode manifest, s.phase p = .loaded merge inode manifest →
      s.manifest = manifest := by
  have hinv : QuietInv s := hreach.invariant (fun _ h => .of_initial h) (fun _ _ h => h.step)
  refine ⟨fun p q hp hq => ?_, hinv.current⟩
  obtain ⟨i, hi⟩ := LockPhase.exists_locked hp
  obtain ⟨j, hj⟩ := LockPhase.exists_locked hq
  exact hinv.settled.unique hi hj

/-- An idle manifest without predictions, and its lock file. -/
def idleManifest : LockState ℕ (List ℕ) where
  disk := ⟨some 0, fun _ => none, fun _ => none, 1⟩
  manifest := some []
  manifestIdle := true
  lockIdle := true
  phase _ := .idle

/-- The commit of one prediction. -/
def commitOne (n : ℕ) : Merge (List ℕ) := fun manifest => some (manifest.getD [] ++ [n])

private theorem idleManifest_initial : idleManifest.Initial :=
  ⟨fun _ => rfl, fun _ => rfl, fun _ => rfl, fun i h => by
    rw [← Option.some.inj h]
    exact Nat.one_pos⟩

/-- A collector removes the manifest and, undisturbed, its lock file; the commit
that comes after it loads the absent manifest, which is what is on disk. -/
theorem quietReachable_exclusive_pruned :
    ∃ s : LockState ℕ (List ℕ), Runs.Reachable LockState.Initial QuietLockStep s ∧
      s.phase 1 = .loaded (commitOne 1) 1 none ∧ s.manifest = none := by
  have hstart : Runs.Reachable LockState.Initial QuietLockStep idleManifest :=
    .start idleManifest_initial
  have hprobing := hstart.next ⟨0, .findManifest rfl rfl rfl, Or.inr fun _ h => h⟩
  have htrying := hprobing.next ⟨0, .probe rfl rfl, Or.inr fun _ h => h⟩
  have hpruning := htrying.next ⟨0, .claim rfl rfl, Or.inr fun _ h => h⟩
  have hremoved := hpruning.next ⟨0, .removeManifest rfl rfl rfl, Or.inr fun _ h => h⟩
  have hreleased := hremoved.next ⟨0, .release rfl, Or.inr fun _ h => h⟩
  -- The collector had the only handle, and has closed it.
  have hunlinked := hreleased.next ⟨0, .unlink rfl, Or.inl fun q => by
    by_cases hq : q = 0
    · rw [hq]
      rfl
    · exact (Function.update_of_ne hq _ _).trans (Function.update_of_ne hq _ _)⟩
  have hopening := hunlinked.next ⟨1, .start (commitOne 1) rfl, Or.inr fun _ h => h⟩
  have hwaiting := hopening.next ⟨1, .createLock rfl rfl, Or.inr fun _ h => by cases h⟩
  have hentered := hwaiting.next ⟨1, .takeLock rfl rfl, Or.inr fun _ h => h⟩
  have hloaded := hentered.next ⟨1, .load rfl, Or.inr fun _ h => h⟩
  exact ⟨_, hloaded, rfl, (quietReachable_exclusive hloaded).2 1 _ _ _ rfl⟩

/-- Process 1 opens the lock file while the collector, process 0, holds it, and gets
the lock when the collector drops it. The collector then unlinks the file, process 2
creates another one, and both are inside: process 2 persists over the prediction that
process 1 persisted after process 2 had loaded. -/
theorem lockReachable_shared :
    ∃ s t : LockState ℕ (List ℕ), Runs.Reachable LockState.Initial LockStepAny s ∧
      (s.phase 1).Inside ∧ (s.phase 2).Inside ∧ s.manifest = some [1] ∧
      s.phase 2 = .loaded (commitOne 2) 1 none ∧ LockStep 2 s t ∧ t.manifest = some [2] := by
  have hstart : Runs.Reachable LockState.Initial LockStepAny idleManifest :=
    .start idleManifest_initial
  have hprobing := hstart.next ⟨0, .findManifest rfl rfl rfl⟩
  have htrying := hprobing.next ⟨0, .probe rfl rfl⟩
  have hpruning := htrying.next ⟨0, .claim rfl rfl⟩
  have hopening := hpruning.next ⟨1, .start (commitOne 1) rfl⟩
  have hwaiting := hopening.next ⟨1, .openLock rfl rfl⟩
  have hremoved := hwaiting.next ⟨0, .removeManifest rfl rfl rfl⟩
  have hreleased := hremoved.next ⟨0, .release rfl⟩
  have hentered := hreleased.next ⟨1, .takeLock rfl rfl⟩
  have hunlinked := hentered.next ⟨0, .unlink rfl⟩
  have hloaded := hunlinked.next ⟨1, .load rfl⟩
  -- The path names nothing now, so the next commit locks a file of its own.
  have hopening' := hloaded.next ⟨2, .start (commitOne 2) rfl⟩
  have hwaiting' := hopening'.next ⟨2, .createLock rfl rfl⟩
  have hentered' := hwaiting'.next ⟨2, .takeLock rfl rfl⟩
  have hloaded' := hentered'.next ⟨2, .load rfl⟩
  have hpersisted := hloaded'.next ⟨1, .persist rfl rfl⟩
  exact ⟨_, _, hpersisted, trivial, trivial, rfl, rfl, .persist rfl rfl, rfl⟩

end MrBoxington.TaskManifest
