import Mathlib.Logic.Function.Basic
import Mathlib.Data.Nat.Notation
import Mathlib.Tactic.Common

/-!
# Exclusive locks on the inodes behind one pathname

A lock belongs to an inode, while processes meet at a pathname. A process opens
whatever inode the path names, locks it, and closes it again; meanwhile other
processes may unlink the path or link another inode there. A process that locks
an inode and then finds the path still naming it has a checked lock, which no
other process can take from it. Processes that never check exclude each other
only as long as the path is not unlinked under an open handle.
-/

namespace LockFile

/-- One pathname, the locks of all inodes it has named, and each process's open
handle. Inodes are numbered in order of creation. -/
structure Disk (π : Type*) where
  path : Option ℕ
  holder : ℕ → Option π
  opened : π → Option ℕ
  next : ℕ

section Locks

variable {π : Type*} {p q : π} {d : Disk π} {i j : ℕ}

/-- What every sequence of operations maintains. -/
structure Disk.Sound (d : Disk π) : Prop where
  path_lt : ∀ i, d.path = some i → i < d.next
  holder_opened : ∀ i p, d.holder i = some p → d.opened p = some i

private theorem Disk.Sound.holder_ne (hsound : d.Sound) (hclosed : d.opened p = none)
    (hheld : d.holder i = some q) : q ≠ p := by
  rintro rfl
  have hopened := hsound.holder_opened i q hheld
  rw [hclosed] at hopened
  exact Option.some_ne_none i hopened.symm

/-- Every open handle is on the inode that the path names. -/
def Disk.Settled (d : Disk π) : Prop := ∀ p i, d.opened p = some i → d.path = some i

/-- On a settled disk at most one process holds the lock. -/
theorem Disk.Settled.holder_unique (hsettled : d.Settled) (hsound : d.Sound)
    (hp : d.holder i = some p) (hq : d.holder j = some q) : p = q := by
  have hi := hsettled p i (hsound.holder_opened i p hp)
  have hj := hsettled q j (hsound.holder_opened j q hq)
  have hij : i = j := Option.some.inj (hi.symm.trans hj)
  subst hij
  exact Option.some.inj (hp.symm.trans hq)

end Locks

variable {π : Type*} [DecidableEq π]

namespace Disk

/-- Open the inode `i`. -/
def openAt (d : Disk π) (p : π) (i : ℕ) : Disk π :=
  { d with opened := Function.update d.opened p (some i) }

/-- Create the file at the path and open it. -/
def create (d : Disk π) (p : π) : Disk π :=
  { d with
    path := some d.next
    opened := Function.update d.opened p (some d.next)
    next := d.next + 1 }

/-- Take the lock of inode `i`. -/
def lock (d : Disk π) (p : π) (i : ℕ) : Disk π :=
  { d with holder := Function.update d.holder i (some p) }

/-- Close the handle, which drops its lock. -/
def close (d : Disk π) (p : π) : Disk π :=
  { d with
    holder := fun i => if d.holder i = some p then none else d.holder i
    opened := Function.update d.opened p none }

/-- Remove the pathname, whatever it names. -/
def unlink (d : Disk π) : Disk π := { d with path := none }

/-- Give the pathname to a new inode, whatever it named. -/
def relink (d : Disk π) : Disk π := { d with path := some d.next, next := d.next + 1 }

/-- Nobody has the file open. -/
def Unused (d : Disk π) : Prop := ∀ p, d.opened p = none

end Disk

/-- One file operation of process `p`. -/
inductive Op (p : π) : Disk π → Disk π → Prop
  | stay (d : Disk π) : Op p d d
  | openAt {d : Disk π} {i : ℕ} (hpath : d.path = some i) (hclosed : d.opened p = none) :
      Op p d (d.openAt p i)
  | create {d : Disk π} (hpath : d.path = none) (hclosed : d.opened p = none) :
      Op p d (d.create p)
  | lock {d : Disk π} {i : ℕ} (hopened : d.opened p = some i) (hfree : d.holder i = none) :
      Op p d (d.lock p i)
  | close (d : Disk π) : Op p d (d.close p)
  | unlink (d : Disk π) : Op p d d.unlink
  | relink (d : Disk π) : Op p d d.relink

variable {p q : π} {d d' : Disk π} {i j : ℕ}

@[simp] private theorem Disk.close_holder :
    (d.close p).holder i = some q ↔ d.holder i = some q ∧ p ≠ q := by
  unfold close
  dsimp only
  split
  · rename_i hheld
    simp [hheld]
  · rename_i hheld
    constructor
    · intro hq
      exact ⟨hq, fun heq => hheld (heq ▸ hq)⟩
    · exact And.left

/-- No operation takes a lock from another process. -/
theorem Op.holder_other (hop : Op q d d') (hne : p ≠ q) (hheld : d.holder i = some p) :
    d'.holder i = some p := by
  cases hop with
  | stay => exact hheld
  | openAt => exact hheld
  | create => exact hheld
  | lock _ hfree =>
    rename_i j _
    have hij : i ≠ j := by
      rintro rfl
      rw [hheld] at hfree
      exact Option.some_ne_none p hfree
    simpa [Disk.lock, Function.update_of_ne hij] using hheld
  | close => exact Disk.close_holder.mpr ⟨hheld, hne.symm⟩
  | unlink => exact hheld
  | relink => exact hheld

theorem Op.opened_other (hop : Op q d d') (hne : p ≠ q) : d'.opened p = d.opened p := by
  cases hop with
  | openAt => exact Function.update_of_ne hne _ _
  | create => exact Function.update_of_ne hne _ _
  | close => exact Function.update_of_ne hne _ _
  | _ => rfl

theorem Op.next_le (hop : Op p d d') : d.next ≤ d'.next := by
  cases hop <;> simp [Disk.openAt, Disk.create, Disk.lock, Disk.close, Disk.unlink, Disk.relink]

/-- Every operation keeps a disk sound. -/
theorem Disk.Sound.op (hsound : d.Sound) (hop : Op p d d') : d'.Sound := by
  cases hop with
  | stay => exact hsound
  | openAt hpath hclosed =>
    refine ⟨hsound.path_lt, fun i q hheld => ?_⟩
    have hne := hsound.holder_ne hclosed hheld
    simpa [Disk.openAt, Function.update_of_ne hne] using hsound.holder_opened i q hheld
  | create hpath hclosed =>
    refine ⟨fun i hi => ?_, fun i q hheld => ?_⟩
    · rw [← Option.some.inj hi]
      exact Nat.lt_succ_self _
    · have hne := hsound.holder_ne hclosed hheld
      simpa [Disk.create, Function.update_of_ne hne] using hsound.holder_opened i q hheld
  | lock hopened hfree =>
    rename_i i
    refine ⟨hsound.path_lt, fun j q hheld => ?_⟩
    by_cases hji : j = i
    · subst hji
      have hqp : p = q := by simpa [Disk.lock] using hheld
      exact hqp ▸ hopened
    · exact hsound.holder_opened j q (by simpa [Disk.lock, Function.update_of_ne hji] using hheld)
  | close =>
    refine ⟨hsound.path_lt, fun i q hheld => ?_⟩
    obtain ⟨hheld, hne⟩ := Disk.close_holder.mp hheld
    simpa [Disk.close, Function.update_of_ne hne.symm] using hsound.holder_opened i q hheld
  | unlink => exact ⟨fun i hi => absurd hi (Option.some_ne_none i).symm, hsound.holder_opened⟩
  | relink =>
    refine ⟨fun i hi => ?_, hsound.holder_opened⟩
    rw [← Option.some.inj hi]
    exact Nat.lt_succ_self _

/-- The path is not taken from its inode while somebody has it open. -/
def Quiet (d d' : Disk π) : Prop := d.Unused ∨ ∀ i, d.path = some i → d'.path = some i

/-- A quiet operation keeps a disk settled. -/
theorem Disk.Settled.op (hsettled : d.Settled) (hop : Op p d d') (hquiet : Quiet d d') :
    d'.Settled := by
  -- Handles that were open before stay on the named inode.
  have hold : ∀ q i, d.opened q = some i → d'.path = some i := by
    intro q i hopened
    rcases hquiet with hunused | hkept
    · rw [hunused q] at hopened
      exact absurd hopened.symm (Option.some_ne_none i)
    · exact hkept i (hsettled q i hopened)
  intro q i hopened
  cases hop with
  | openAt hpath hclosed =>
    by_cases hqp : q = p
    · subst hqp
      simpa [Disk.openAt, hpath] using hopened
    · exact hold q i (by simpa [Disk.openAt, Function.update_of_ne hqp] using hopened)
  | create hpath hclosed =>
    by_cases hqp : q = p
    · subst hqp
      simpa [Disk.create] using hopened
    · exact hold q i (by simpa [Disk.create, Function.update_of_ne hqp] using hopened)
  | close =>
    by_cases hqp : q = p
    · subst hqp
      simp [Disk.close] at hopened
    · exact hold q i (by simpa [Disk.close, Function.update_of_ne hqp] using hopened)
  | stay => exact hold q i hopened
  | lock => exact hold q i hopened
  | unlink => exact hold q i hopened
  | relink => exact hold q i hopened

end LockFile
