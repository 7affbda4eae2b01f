import MrBoxington.Lib.LeaseFiles
import MrBoxington.Lib.Runs

/-!
# Incremental state of checkouts

Every checkout has a directory of learned incremental state with one directory for each
unit. A process that uses a checkout's state holds an active lease, a locked file of its
own, and whoever removes state probes for leases while it holds the registrar; it renames
what it removes under the registrar and deletes the renamed tree afterwards. State that
older versions left is retired once: an epoch file lists the checkouts that are still to be
retired, and no state is copied between checkouts before the list is empty.
-/

namespace MrBoxington.Incremental

/-- An active lease. -/
structure ActiveLease where
  inode : ℕ
  acquired : ℕ
deriving DecidableEq

/-- The directory of a checkout. -/
structure Checkout (υ : Type) where
  /-- When it was created, which tells it from another directory of the same name. -/
  born : ℕ
  units : υ → Bool

/-- A tree that was renamed before its deletion. -/
inductive Tree (κ υ : Type) where
  | checkout (key : κ) (directory : Checkout υ)
  | unit (key : κ) (unit : υ)

/-- The checkout that a tree belonged to. -/
def Tree.key {κ υ : Type} : Tree κ υ → κ
  | .checkout k _ => k
  | .unit k _ => k

/-- What a lease is for. -/
inductive Purpose where
  | build
  | donor
  | trimming

/-- What `acquire_lease` does next. -/
inductive AcquirePoint where
  | waiting
  | naming
  | created (random : ℕ)
  | opened (random inode : ℕ)
  | leaving
  | failing

/-- What the drop of a lease does next, with whether it holds the registrar. -/
inductive DropPoint where
  | waiting
  | unlocking (registered : Bool)
  | unlinking (registered : Bool)
  | leaving (registered : Bool)

/-- What `probe_leases` does next. -/
inductive ProbePoint (π : Type) where
  | listing
  | probing (found rest : List (π × ℕ))
  | pruning (name : π × ℕ) (found rest : List (π × ℕ))

/-- What a step of `probe_leases` leads to. -/
inductive Probe (π : Type) where
  | point (point : ProbePoint π)
  | judged (active : Bool)
  | failed

/-- What is to be removed under a deletion guard. -/
inductive Job (κ υ : Type) where
  | unit (key : κ) (unit : υ)
  | checkout (key : κ)
  | workspace (key : κ)

/-- The checkout that is guarded. -/
def Job.key {κ υ : Type} : Job κ υ → κ
  | .unit k _ => k
  | .checkout k => k
  | .workspace k => k

/-- What happens next under a deletion guard. -/
inductive GuardPoint (π : Type) where
  | waiting
  | probing (point : ProbePoint π)
  /-- See whether compilers use the unit, or whether the checkout has units. -/
  | inspecting
  | retiring
  | unrecording (time : ℕ)
  | restoring (time : ℕ)
  | leaving (retired : Option ℕ)

/-- What `discard_pre_copy_state` does next. -/
inductive DiscardPoint (π κ : Type) where
  | checking
  | waiting
  | reading
  | listing
  | writing (keys : List κ)
  | next (todo kept : List κ)
  | probing (key : κ) (todo kept : List κ) (point : ProbePoint π)
  | retiring (key : κ) (todo kept : List κ)
  | unrecording (key : κ) (todo kept : List κ) (time : ℕ)
  | restoring (key : κ) (todo kept : List κ) (time : ℕ)
  | saving (kept : List κ)
  | leaving (ok : Bool)

/-- What a process does. -/
inductive Phase (π κ υ : Type) where
  | idle
  | acquiring (key : κ) (purpose : Purpose) (point : AcquirePoint)
  | creating (key : κ)
  | dropping (key : κ) (random : ℕ) (point : DropPoint)
  | collecting (dryRun : Bool)
  | guarding (job : Job κ υ) (dryRun : Bool) (point : GuardPoint π)
  | deleting (job : Job κ υ) (time : ℕ)
  | discarding (build : Option κ) (point : DiscardPoint π κ)

/-- The root directory and the processes that use it. -/
structure State (π κ υ : Type) where
  alive : π → Bool
  registrar : Option π
  files : LeaseFiles.Disk κ (π × ℕ)
  /-- The leases of each process on each checkout, by the random numbers in their names. -/
  leases : π → κ → ℕ → Option ActiveLease
  checkout : κ → Option (Checkout υ)
  /-- The retired trees that have not been deleted, by the time of their retirement. -/
  retired : ℕ → Option (Tree κ υ)
  epoch : Option (List κ)
  /-- When the directories were created that existed when the epoch file was first
  written. -/
  first : Option (κ → Option ℕ)
  /-- The number of acquired leases, created directories and retired trees so far. -/
  now : ℕ
  phase : π → Phase π κ υ

variable {π κ υ : Type} [DecidableEq π] [DecidableEq κ] [DecidableEq υ]

namespace State

/-- The state with another phase of a process. -/
@[simps -fullyApplied]
def goto (s : State π κ υ) (p : π) (phase : Phase π κ υ) : State π κ υ :=
  { s with phase := Function.update s.phase p phase }

/-- The registrar is taken or released. -/
@[simps -fullyApplied]
def setRegistrar (s : State π κ υ) (holder : Option π) : State π κ υ :=
  { s with registrar := holder }

/-- The lease files change. -/
@[simps -fullyApplied]
def setFiles (s : State π κ υ) (files : LeaseFiles.Disk κ (π × ℕ)) : State π κ υ :=
  { s with files := files }

/-- A lease is gained or lost. -/
@[simps -fullyApplied]
def setLease (s : State π κ υ) (p : π) (k : κ) (random : ℕ) (lease : Option ActiveLease) :
    State π κ υ :=
  { s with leases := Function.update s.leases p (Function.update (s.leases p) k
      (Function.update (s.leases p k) random lease)) }

/-- The directory of a checkout changes. -/
@[simps -fullyApplied]
def setCheckout (s : State π κ υ) (k : κ) (directory : Option (Checkout υ)) : State π κ υ :=
  { s with checkout := Function.update s.checkout k directory }

/-- A tree is retired, deleted or restored. -/
@[simps -fullyApplied]
def setRetired (s : State π κ υ) (time : ℕ) (tree : Option (Tree κ υ)) : State π κ υ :=
  { s with retired := Function.update s.retired time tree }

/-- Time passes. -/
@[simps -fullyApplied]
def tick (s : State π κ υ) : State π κ υ := { s with now := s.now + 1 }

/-- The epoch file is written. -/
@[simps -fullyApplied]
def setEpoch (s : State π κ υ) (keys : List κ) : State π κ υ := { s with epoch := some keys }

/-- The epoch file is written for the first time. -/
@[simps -fullyApplied]
def beginEpoch (s : State π κ υ) (keys : List κ) : State π κ υ :=
  { s.setEpoch keys with first := some fun k => (s.checkout k).map Checkout.born }

/-- The directory of a checkout is renamed. -/
def retireCheckout (s : State π κ υ) (k : κ) (directory : Checkout υ) : State π κ υ :=
  ((s.setCheckout k none).setRetired s.now (some (.checkout k directory))).tick

/-- The directory of a unit is renamed. -/
def retireUnit (s : State π κ υ) (k : κ) (directory : Checkout υ) (u : υ) : State π κ υ :=
  ((s.setCheckout k (some { directory with units := Function.update directory.units u false
    })).setRetired s.now (some (.unit k u))).tick

/-- The directory of a checkout is renamed back. -/
def restoreCheckout (s : State π κ υ) (k : κ) (directory : Checkout υ) (time : ℕ) :
    State π κ υ :=
  (s.setCheckout k (some directory)).setRetired time none

/-- Nothing of old versions is left, so that state may be copied. -/
def copyStateReady (s : State π κ υ) : Bool := s.epoch.any List.isEmpty

end State

end MrBoxington.Incremental
