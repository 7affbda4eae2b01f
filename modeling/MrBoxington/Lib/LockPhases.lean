import MrBoxington.Lib.LockFile

/-!
# Programs that lock the file behind a pathname

A program that works on a lock file moves through phases; each phase says which
inode it has open and which it has locked. When every step of a program agrees
with its phases, the handles and locks on disk are always those that the phases
of the processes say. If moreover no step takes the path from an inode that is
open, at most one process is in a phase that holds a lock.
-/

namespace LockFile

variable {π Φ : Type*}

/-- The inode that a program in each phase has open, and the one it has locked. -/
structure Phases (Φ : Type*) where
  handle : Φ → Option ℕ
  locked : Φ → Option ℕ

variable {phases : Phases Φ}

/-- The handles and locks on disk are those of the processes' phases. -/
structure Phases.Tracks (phases : Phases Φ) (d : Disk π) (phase : π → Φ) : Prop where
  sound : d.Sound
  opened : ∀ p, d.opened p = phases.handle (phase p)
  holder : ∀ p i, phases.locked (phase p) = some i → d.holder i = some p

theorem Phases.Tracks.of_unused {d : Disk π} {phase : π → Φ}
    (hpath : ∀ i, d.path = some i → i < d.next) (hopened : d.Unused)
    (hholder : ∀ i, d.holder i = none) (hhandle : ∀ p, phases.handle (phase p) = none)
    (hlocked : ∀ p, phases.locked (phase p) = none) : phases.Tracks d phase where
  sound := ⟨hpath, fun i p h => absurd ((hholder i).symm.trans h) (Option.some_ne_none p).symm⟩
  opened p := (hopened p).trans (hhandle p).symm
  holder p i h := absurd ((hlocked p).symm.trans h) (Option.some_ne_none i).symm

/-- The phases are tracked, and all handles are on the inode that the path names. -/
structure Phases.Settled (phases : Phases Φ) (d : Disk π) (phase : π → Φ) : Prop where
  tracks : phases.Tracks d phase
  named : d.Settled

theorem Phases.Settled.of_unused {d : Disk π} {phase : π → Φ}
    (hpath : ∀ i, d.path = some i → i < d.next) (hopened : d.Unused)
    (hholder : ∀ i, d.holder i = none) (hhandle : ∀ p, phases.handle (phase p) = none)
    (hlocked : ∀ p, phases.locked (phase p) = none) : phases.Settled d phase where
  tracks := .of_unused hpath hopened hholder hhandle hlocked
  named p i h := absurd ((hopened p).symm.trans h) (Option.some_ne_none i).symm

/-- At most one process is in a locked phase. -/
theorem Phases.Settled.unique {d : Disk π} {phase : π → Φ} (hsettled : phases.Settled d phase)
    {p q : π} {i j : ℕ} (hp : phases.locked (phase p) = some i)
    (hq : phases.locked (phase q) = some j) : p = q :=
  hsettled.named.holder_unique hsettled.tracks.sound (hsettled.tracks.holder p i hp)
    (hsettled.tracks.holder q j hq)

variable [DecidableEq π]

/-- A step of process `p` from phase `φ` to `ψ` that agrees with both phases. -/
inductive Phases.Step (phases : Phases Φ) (p : π) : Disk π → Φ → Disk π → Φ → Prop
  | stay {d φ ψ} (hhandle : phases.handle ψ = phases.handle φ)
      (hlocked : ∀ i, phases.locked ψ = some i → phases.locked φ = some i) :
      Step phases p d φ d ψ
  | openAt {d φ ψ i} (hpath : d.path = some i) (hclosed : phases.handle φ = none)
      (hhandle : phases.handle ψ = some i) (hlocked : phases.locked ψ = none) :
      Step phases p d φ (d.openAt p i) ψ
  | create {d φ ψ} (hpath : d.path = none) (hclosed : phases.handle φ = none)
      (hhandle : phases.handle ψ = some d.next) (hlocked : phases.locked ψ = none) :
      Step phases p d φ (d.create p) ψ
  | lock {d φ ψ i} (hopened : phases.handle φ = some i) (hfree : d.holder i = none)
      (hhandle : phases.handle ψ = some i) (hlocked : phases.locked ψ = some i) :
      Step phases p d φ (d.lock p i) ψ
  | close {d φ ψ} (hhandle : phases.handle ψ = none) (hlocked : phases.locked ψ = none) :
      Step phases p d φ (d.close p) ψ
  | unlink {d φ ψ} (hhandle : phases.handle ψ = phases.handle φ)
      (hlocked : ∀ i, phases.locked ψ = some i → phases.locked φ = some i) :
      Step phases p d φ d.unlink ψ
  | relink {d φ ψ} (hhandle : phases.handle ψ = phases.handle φ)
      (hlocked : ∀ i, phases.locked ψ = some i → phases.locked φ = some i) :
      Step phases p d φ d.relink ψ

variable {p : π} {d d' : Disk π} {phase : π → Φ} {ψ : Φ}

/-- A step of the phases is an operation on the disk. -/
theorem Phases.Step.op (hstep : phases.Step p d (phase p) d' ψ)
    (htracks : phases.Tracks d phase) : Op p d d' := by
  have hopened := htracks.opened p
  cases hstep with
  | stay => exact .stay d
  | openAt hpath hclosed => exact .openAt hpath (hopened.trans hclosed)
  | create hpath hclosed => exact .create hpath (hopened.trans hclosed)
  | lock hhandle hfree => exact .lock (hopened.trans hhandle) hfree
  | close => exact .close d
  | unlink => exact .unlink d
  | relink => exact .relink d

/-- The step lemma: the phases keep track of the disk. -/
theorem Phases.Tracks.step (htracks : phases.Tracks d phase)
    (hstep : phases.Step p d (phase p) d' ψ) :
    phases.Tracks d' (Function.update phase p ψ) := by
  have hop := hstep.op htracks
  have hown : d'.opened p = phases.handle ψ ∧
      ∀ i, phases.locked ψ = some i → d'.holder i = some p := by
    have hopened := htracks.opened p
    have hnone : ∀ {i}, phases.locked ψ = none → phases.locked ψ = some i → False :=
      fun hnone hsome => Option.some_ne_none _ (hsome.symm.trans hnone)
    cases hstep with
    | stay hhandle hlocked =>
      exact ⟨hopened.trans hhandle.symm, fun i h => htracks.holder p i (hlocked i h)⟩
    | openAt _ _ hhandle hlocked =>
      exact ⟨(Function.update_self _ _ _).trans hhandle.symm, fun i h => (hnone hlocked h).elim⟩
    | create _ _ hhandle hlocked =>
      exact ⟨(Function.update_self _ _ _).trans hhandle.symm, fun i h => (hnone hlocked h).elim⟩
    | lock hopen _ hhandle hlocked =>
      refine ⟨hopened.trans (hopen.trans hhandle.symm), fun i h => ?_⟩
      rw [Option.some.inj (hlocked.symm.trans h)]
      exact Function.update_self _ _ _
    | close hhandle hlocked =>
      exact ⟨(Function.update_self _ _ _).trans hhandle.symm, fun i h => (hnone hlocked h).elim⟩
    | unlink hhandle hlocked =>
      exact ⟨hopened.trans hhandle.symm, fun i h => htracks.holder p i (hlocked i h)⟩
    | relink hhandle hlocked =>
      exact ⟨hopened.trans hhandle.symm, fun i h => htracks.holder p i (hlocked i h)⟩
  refine ⟨htracks.sound.op hop, fun q => ?_, fun q i hlocked => ?_⟩
  · by_cases hqp : q = p
    · rw [hqp, Function.update_self]
      exact hown.1
    · rw [Function.update_of_ne hqp, hop.opened_other hqp]
      exact htracks.opened q
  · by_cases hqp : q = p
    · rw [hqp, Function.update_self] at hlocked
      rw [hqp]
      exact hown.2 i hlocked
    · rw [Function.update_of_ne hqp] at hlocked
      exact hop.holder_other hqp (htracks.holder q i hlocked)

/-- A step that takes the path from no open inode keeps all handles on the named
one. -/
theorem Phases.Settled.step (hsettled : phases.Settled d phase)
    (hstep : phases.Step p d (phase p) d' ψ) (hquiet : Quiet d d') :
    phases.Settled d' (Function.update phase p ψ) :=
  ⟨hsettled.tracks.step hstep, hsettled.named.op (hstep.op hsettled.tracks) hquiet⟩

end LockFile
