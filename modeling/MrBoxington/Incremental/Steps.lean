import MrBoxington.Incremental.State

/-!
# Leases, collections and the copy epoch, step by step

Each operation on files and locks is a step of its own, and each one may fail. A process
may die between any two steps; its locks are then dropped, and its files stay.
-/

namespace MrBoxington.Incremental

variable {π κ υ : Type} [DecidableEq π] [DecidableEq κ] [DecidableEq υ]

/-- The phase after a lease was acquired. -/
def Purpose.acquired (k : κ) : Purpose → Phase π κ υ
  | .build => .creating k
  | .donor => .idle
  | .trimming => .collecting false

/-- The phase after it could not be acquired. -/
def Purpose.refused : Purpose → Phase π κ υ
  | .trimming => .collecting false
  | _ => .idle

/-- A step of `acquire_lease`. -/
inductive AcquireStep (p : π) (k : κ) (purpose : Purpose) :
    AcquirePoint → State π κ υ → Phase π κ υ → State π κ υ → Prop
  | enter (s : State π κ υ) (hfree : s.registrar = none) :
      AcquireStep p k purpose .waiting s (.acquiring k purpose .naming) (s.setRegistrar (some p))
  | enterFails (s : State π κ υ) : AcquireStep p k purpose .waiting s purpose.refused s
  | create (s : State π κ υ) (random : ℕ) (hnew : s.files.path k (p, random) = none) :
      AcquireStep p k purpose .naming s (.acquiring k purpose (.created random))
        (s.setFiles (s.files.create k (p, random)))
  | createFails (s : State π κ υ) :
      AcquireStep p k purpose .naming s (.acquiring k purpose .failing) s
  | openFile (s : State π κ υ) (random inode : ℕ) (files : LeaseFiles.Disk κ (π × ℕ))
      (hopens : s.files.Opens k (p, random) inode files) :
      AcquireStep p k purpose (.created random) s (.acquiring k purpose (.opened random inode))
        (s.setFiles files)
  | openFails (s : State π κ υ) (random : ℕ) :
      AcquireStep p k purpose (.created random) s (.acquiring k purpose .failing) s
  | lock (s : State π κ υ) (random inode : ℕ) (hfree : s.files.locked inode = false) :
      AcquireStep p k purpose (.opened random inode) s (.acquiring k purpose .leaving)
        (((s.setFiles (s.files.lock inode)).setLease p k random (some ⟨inode, s.now⟩)).tick)
  | lockFails (s : State π κ υ) (random inode : ℕ) :
      AcquireStep p k purpose (.opened random inode) s (.acquiring k purpose .failing) s
  | leave (s : State π κ υ) :
      AcquireStep p k purpose .leaving s (purpose.acquired k) (s.setRegistrar none)
  | giveUp (s : State π κ υ) :
      AcquireStep p k purpose .failing s purpose.refused (s.setRegistrar none)

/-- A step of the drop of a lease. Without the registrar it goes on all the same. -/
inductive DropStep (p : π) (k : κ) (random : ℕ) :
    DropPoint → State π κ υ → Phase π κ υ → State π κ υ → Prop
  | enter (s : State π κ υ) (hfree : s.registrar = none) :
      DropStep p k random .waiting s (.dropping k random (.unlocking true))
        (s.setRegistrar (some p))
  | enterFails (s : State π κ υ) :
      DropStep p k random .waiting s (.dropping k random (.unlocking false)) s
  | unlock (s : State π κ υ) (registered : Bool) (lease : ActiveLease)
      (hheld : s.leases p k random = some lease) :
      DropStep p k random (.unlocking registered) s (.dropping k random (.unlinking registered))
        ((s.setLease p k random none).setFiles (s.files.unlock lease.inode))
  | unlink (s : State π κ υ) (registered : Bool) :
      DropStep p k random (.unlinking registered) s (.dropping k random (.leaving registered))
        (s.setFiles (s.files.unlink k (p, random)))
  | unlinkFails (s : State π κ υ) (registered : Bool) :
      DropStep p k random (.unlinking registered) s (.dropping k random (.leaving registered)) s
  | leave (s : State π κ υ) (registered : Bool) :
      DropStep p k random (.leaving registered) s .idle
        (if registered then s.setRegistrar none else s)

/-- A step of `probe_leases`, which removes files that nobody has locked if it cleans up. -/
inductive ProbeStep (cleanup : Bool) (k : κ) :
    ProbePoint π → LeaseFiles.Disk κ (π × ℕ) → Probe π → LeaseFiles.Disk κ (π × ℕ) → Prop
  | list (d : LeaseFiles.Disk κ (π × ℕ)) (names : List (π × ℕ))
      (hnames : ∀ name, name ∈ names ↔ d.path k name ≠ none) :
      ProbeStep cleanup k .listing d (.point (.probing [] names)) d
  | fail (d : LeaseFiles.Disk κ (π × ℕ)) (point : ProbePoint π) :
      ProbeStep cleanup k point d .failed d
  | free (d d' : LeaseFiles.Disk κ (π × ℕ)) (name : π × ℕ) (found rest : List (π × ℕ))
      (inode : ℕ) (hopens : d.Opens k name inode d') (hfree : d'.locked inode = false) :
      ProbeStep cleanup k (.probing found (name :: rest)) d
        (.point (if cleanup then .pruning name found rest else .probing found rest)) d'
  | skip (d : LeaseFiles.Disk κ (π × ℕ)) (name : π × ℕ) (found rest : List (π × ℕ))
      (hnone : d.path k name = none) :
      ProbeStep cleanup k (.probing found (name :: rest)) d (.point (.probing found rest)) d
  | held (d d' : LeaseFiles.Disk κ (π × ℕ)) (name : π × ℕ) (found rest : List (π × ℕ))
      (inode : ℕ) (hopens : d.Opens k name inode d') (hlocked : d'.locked inode = true) :
      ProbeStep cleanup k (.probing found (name :: rest)) d
        (.point (.probing (name :: found) rest)) d'
  | prune (d : LeaseFiles.Disk κ (π × ℕ)) (name : π × ℕ) (found rest : List (π × ℕ)) :
      ProbeStep cleanup k (.pruning name found rest) d (.point (.probing found rest))
        (d.unlink k name)
  | pruneFails (d : LeaseFiles.Disk κ (π × ℕ)) (name : π × ℕ) (found rest : List (π × ℕ)) :
      ProbeStep cleanup k (.pruning name found rest) d (.point (.probing found rest)) d
  | judge (d : LeaseFiles.Disk κ (π × ℕ)) (found : List (π × ℕ)) :
      ProbeStep cleanup k (.probing found []) d (.judged !found.isEmpty) d

/-- What a guard does with the answer of a probe. A preview removes nothing. -/
def GuardPoint.afterProbe (dryRun : Bool) : Probe π → GuardPoint π
  | .point next => .probing next
  | .judged false => if dryRun then .leaving none else .inspecting
  | .judged true => .leaving none
  | .failed => .leaving none

/-- The inspection of a job allows its removal. -/
def Job.Removable (s : State π κ υ) : Job κ υ → Prop
  | .unit _ _ => True
  | .checkout k => ∀ directory, s.checkout k = some directory → ∀ u, directory.units u = false
  | .workspace _ => True

/-- The job is to remove a whole checkout. -/
def Job.whole : Job κ υ → Bool
  | .unit _ _ => false
  | _ => true

/-- A step under a deletion guard. -/
inductive GuardStep (p : π) (job : Job κ υ) (dryRun : Bool) :
    GuardPoint π → State π κ υ → GuardPoint π → State π κ υ → Prop
  | enter (s : State π κ υ) (hfree : s.registrar = none) :
      GuardStep p job dryRun .waiting s (.probing .listing) (s.setRegistrar (some p))
  | probe (s : State π κ υ) (point : ProbePoint π) (result : Probe π)
      (files : LeaseFiles.Disk κ (π × ℕ))
      (hprobe : ProbeStep (!dryRun) job.key point s.files result files) :
      GuardStep p job dryRun (.probing point) s (.afterProbe dryRun result) (s.setFiles files)
  /-- The unit is in use, its stamps could not be retired, or the checkout has units. -/
  | keep (s : State π κ υ) : GuardStep p job dryRun .inspecting s (.leaving none) s
  | inspect (s : State π κ υ) (hremovable : job.Removable s) :
      GuardStep p job dryRun .inspecting s .retiring s
  | retireCheckout (s : State π κ υ) (directory : Checkout υ) (hwhole : job.whole = true)
      (hthere : s.checkout job.key = some directory) :
      GuardStep p job dryRun .retiring s (.unrecording s.now)
        (s.retireCheckout job.key directory)
  | retireUnit (s : State π κ υ) (directory : Checkout υ) (u : υ)
      (hjob : job = .unit job.key u) (hthere : s.checkout job.key = some directory)
      (hunit : directory.units u = true) :
      GuardStep p job dryRun .retiring s (.leaving (some s.now))
        (s.retireUnit job.key directory u)
  | retireNothing (s : State π κ υ) : GuardStep p job dryRun .retiring s (.leaving none) s
  | unrecord (s : State π κ υ) (time : ℕ) :
      GuardStep p job dryRun (.unrecording time) s (.leaving (some time)) s
  | unrecordFails (s : State π κ υ) (time : ℕ) :
      GuardStep p job dryRun (.unrecording time) s (.restoring time) s
  | restore (s : State π κ υ) (time : ℕ) (directory : Checkout υ)
      (htree : s.retired time = some (.checkout job.key directory))
      (hfree : s.checkout job.key = none) :
      GuardStep p job dryRun (.restoring time) s (.leaving none)
        (s.restoreCheckout job.key directory time)
  | restoreFails (s : State π κ υ) (time : ℕ) :
      GuardStep p job dryRun (.restoring time) s (.leaving none) s

/-- The phase after a guard was dropped and its tree deleted. -/
def Job.done (dryRun : Bool) : Job κ υ → Phase π κ υ
  | .workspace _ => .idle
  | _ => .collecting dryRun

/-- The phase after a guard was dropped. -/
def Job.dropped (dryRun : Bool) (job : Job κ υ) : Option ℕ → Phase π κ υ
  | some time => .deleting job time
  | none => job.done dryRun

/-- Where `discard_pre_copy_state` goes on after a probe. -/
def DiscardPoint.afterProbe (k : κ) (todo kept : List κ) : Probe π → DiscardPoint π κ
  | .point step => .probing k todo kept step
  | .judged false => .retiring k todo kept
  | .judged true => .next todo (kept ++ [k])
  | .failed => .next todo (kept ++ [k])

/-- Where it goes on with the checkouts that the epoch file lists. -/
def DiscardPoint.begin (keys : List κ) : DiscardPoint π κ :=
  if keys = [] then .leaving true else .next keys []

/-- A step of `discard_pre_copy_state`. -/
inductive DiscardStep (p : π) :
    DiscardPoint π κ → State π κ υ → DiscardPoint π κ → State π κ υ → Prop
  | stale (s : State π κ υ) (hstale : s.copyStateReady = false) :
      DiscardStep p .checking s .waiting s
  | enter (s : State π κ υ) (hfree : s.registrar = none) :
      DiscardStep p .waiting s .reading (s.setRegistrar (some p))
  | read (s : State π κ υ) (keys : List κ) (hepoch : s.epoch = some keys) :
      DiscardStep p .reading s (.begin keys) s
  | readNothing (s : State π κ υ) (hepoch : s.epoch = none) : DiscardStep p .reading s .listing s
  | list (s : State π κ υ) (keys : List κ) (hkeys : ∀ k, k ∈ keys ↔ s.checkout k ≠ none) :
      DiscardStep p .listing s (.writing keys) s
  | listFails (s : State π κ υ) : DiscardStep p .listing s (.leaving false) s
  | write (s : State π κ υ) (keys : List κ) :
      DiscardStep p (.writing keys) s (.begin keys) (s.beginEpoch keys)
  | writeFails (s : State π κ υ) (keys : List κ) :
      DiscardStep p (.writing keys) s (.leaving false) s
  | next (s : State π κ υ) (k : κ) (todo kept : List κ) :
      DiscardStep p (.next (k :: todo) kept) s (.probing k todo kept .listing) s
  | probe (s : State π κ υ) (k : κ) (todo kept : List κ) (point : ProbePoint π)
      (result : Probe π) (files : LeaseFiles.Disk κ (π × ℕ))
      (hprobe : ProbeStep true k point s.files result files) :
      DiscardStep p (.probing k todo kept point) s (.afterProbe k todo kept result)
        (s.setFiles files)
  | retire (s : State π κ υ) (k : κ) (todo kept : List κ) (directory : Checkout υ)
      (hthere : s.checkout k = some directory) :
      DiscardStep p (.retiring k todo kept) s (.unrecording k todo kept s.now)
        (s.retireCheckout k directory)
  | retireMissing (s : State π κ υ) (k : κ) (todo kept : List κ) (hnone : s.checkout k = none) :
      DiscardStep p (.retiring k todo kept) s (.next todo kept) s
  | retireFails (s : State π κ υ) (k : κ) (todo kept : List κ) :
      DiscardStep p (.retiring k todo kept) s (.next todo (kept ++ [k])) s
  | unrecord (s : State π κ υ) (k : κ) (todo kept : List κ) (time : ℕ) :
      DiscardStep p (.unrecording k todo kept time) s (.next todo kept) s
  | unrecordFails (s : State π κ υ) (k : κ) (todo kept : List κ) (time : ℕ) :
      DiscardStep p (.unrecording k todo kept time) s (.restoring k todo kept time) s
  | restore (s : State π κ υ) (k : κ) (todo kept : List κ) (time : ℕ) (directory : Checkout υ)
      (htree : s.retired time = some (.checkout k directory)) (hfree : s.checkout k = none) :
      DiscardStep p (.restoring k todo kept time) s (.next todo (kept ++ [k]))
        (s.restoreCheckout k directory time)
  | restoreFails (s : State π κ υ) (k : κ) (todo kept : List κ) (time : ℕ) :
      DiscardStep p (.restoring k todo kept time) s (.next todo (kept ++ [k])) s
  | all (s : State π κ υ) (kept : List κ) : DiscardStep p (.next [] kept) s (.saving kept) s
  | save (s : State π κ υ) (kept : List κ) :
      DiscardStep p (.saving kept) s (.leaving true) (s.setEpoch kept)
  | saveFails (s : State π κ υ) (kept : List κ) :
      DiscardStep p (.saving kept) s (.leaving false) s

/-- The phase after old state was discarded: the lease of the build comes next. -/
def discarded : Option κ → Phase π κ υ
  | some k => .acquiring k .build .waiting
  | none => .idle

/-- What a process may do. Which units and checkouts are collected depends on their ages and
on budgets; any may be. -/
inductive ProcessStep (p : π) : State π κ υ → State π κ υ → Prop
  | acquire (s : State π κ υ) (k : κ) (hidle : s.phase p = .idle) :
      ProcessStep p s (s.goto p (.acquiring k .donor .waiting))
  | acquiring {s s' : State π κ υ} {k : κ} {purpose : Purpose} {point : AcquirePoint}
      {next : Phase π κ υ} (hphase : s.phase p = .acquiring k purpose point)
      (hstep : AcquireStep p k purpose point s next s') : ProcessStep p s (s'.goto p next)
  | create (s : State π κ υ) (k : κ) (hphase : s.phase p = .creating k)
      (hnone : s.checkout k = none) :
      ProcessStep p s (((s.setCheckout k (some ⟨s.now, fun _ => false⟩)).tick).goto p .idle)
  | createNothing (s : State π κ υ) (k : κ) (hphase : s.phase p = .creating k) :
      ProcessStep p s (s.goto p .idle)
  | compile (s : State π κ υ) (k : κ) (random : ℕ) (directory : Checkout υ) (u : υ)
      (hidle : s.phase p = .idle) (hlease : s.leases p k random ≠ none)
      (hthere : s.checkout k = some directory) :
      ProcessStep p s (s.setCheckout k (some { directory with
        units := Function.update directory.units u true }))
  | drop (s : State π κ υ) (k : κ) (random : ℕ) (hidle : s.phase p = .idle)
      (hlease : s.leases p k random ≠ none) :
      ProcessStep p s (s.goto p (.dropping k random .waiting))
  | dropping {s s' : State π κ υ} {k : κ} {random : ℕ} {point : DropPoint}
      {next : Phase π κ υ} (hphase : s.phase p = .dropping k random point)
      (hstep : DropStep p k random point s next s') : ProcessStep p s (s'.goto p next)
  | collect (s : State π κ υ) (dryRun : Bool) (hidle : s.phase p = .idle) :
      ProcessStep p s (s.goto p (.collecting dryRun))
  | sweep (s : State π κ υ) (time : ℕ) (hphase : s.phase p = .collecting false) :
      ProcessStep p s (s.setRetired time none)
  | guard (s : State π κ υ) (job : Job κ υ) (dryRun : Bool)
      (hphase : s.phase p = job.done dryRun) :
      ProcessStep p s (s.goto p (.guarding job dryRun .waiting))
  | trim (s : State π κ υ) (k : κ) (hphase : s.phase p = .collecting false) :
      ProcessStep p s (s.goto p (.acquiring k .trimming .waiting))
  | finish (s : State π κ υ) (dryRun : Bool) (hphase : s.phase p = .collecting dryRun) :
      ProcessStep p s (s.goto p .idle)
  | guarding {s s' : State π κ υ} {job : Job κ υ} {dryRun : Bool} {point next : GuardPoint π}
      (hphase : s.phase p = .guarding job dryRun point)
      (hstep : GuardStep p job dryRun point s next s') :
      ProcessStep p s (s'.goto p (.guarding job dryRun next))
  | guardFails (s : State π κ υ) (job : Job κ υ) (dryRun : Bool)
      (hphase : s.phase p = .guarding job dryRun .waiting) :
      ProcessStep p s (s.goto p (job.done dryRun))
  | unguard (s : State π κ υ) (job : Job κ υ) (dryRun : Bool) (retired : Option ℕ)
      (hphase : s.phase p = .guarding job dryRun (.leaving retired)) :
      ProcessStep p s ((s.setRegistrar none).goto p (job.dropped dryRun retired))
  | delete (s : State π κ υ) (job : Job κ υ) (time : ℕ) (hphase : s.phase p = .deleting job time) :
      ProcessStep p s ((s.setRetired time none).goto p (job.done false))
  | deleteFails (s : State π κ υ) (job : Job κ υ) (time : ℕ)
      (hphase : s.phase p = .deleting job time) : ProcessStep p s (s.goto p (job.done false))
  | discard (s : State π κ υ) (build : Option κ) (hidle : s.phase p = .idle) :
      ProcessStep p s (s.goto p (.discarding build .checking))
  | discardReady (s : State π κ υ) (build : Option κ)
      (hphase : s.phase p = .discarding build .checking) (hready : s.copyStateReady = true) :
      ProcessStep p s (s.goto p (discarded build))
  | discarding {s s' : State π κ υ} {build : Option κ} {point next : DiscardPoint π κ}
      (hphase : s.phase p = .discarding build point) (hstep : DiscardStep p point s next s') :
      ProcessStep p s (s'.goto p (.discarding build next))
  | discardFails (s : State π κ υ) (build : Option κ)
      (hphase : s.phase p = .discarding build .waiting) : ProcessStep p s (s.goto p .idle)
  | discarded (s : State π κ υ) (build : Option κ) (ok : Bool)
      (hphase : s.phase p = .discarding build (.leaving ok)) :
      ProcessStep p s
        ((s.setRegistrar none).goto p (if ok then Incremental.discarded build else .idle))

/-- How a process dies: it is dead at once, and its locks are dropped one after the other. -/
inductive CrashStep : State π κ υ → State π κ υ → Prop
  | crash (s : State π κ υ) (p : π) :
      CrashStep s { s with alive := Function.update s.alive p false }
  | reap (s : State π κ υ) (p : π) (hdead : s.alive p = false) :
      CrashStep s
        ((s.setRegistrar (if s.registrar = some p then none else s.registrar)).goto p .idle)
  | unlock (s : State π κ υ) (p : π) (k : κ) (random : ℕ) (lease : ActiveLease)
      (hdead : s.alive p = false) (hheld : s.leases p k random = some lease) :
      CrashStep s ((s.setLease p k random none).setFiles (s.files.unlock lease.inode))

/-- One step of anybody. -/
def Step (s s' : State π κ υ) : Prop :=
  CrashStep s s' ∨ ∃ p, s.alive p = true ∧ ProcessStep p s s'

end MrBoxington.Incremental
