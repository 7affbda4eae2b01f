import MrBoxington.Lib.LeaseFiles
import MrBoxington.Lib.LockFile
import MrBoxington.Lib.Runs

/-!
# Stable trees of build-script outputs

A compilation reads the outputs of a build script from a copy that is named for its
contents. The process that compiles takes a lease on the copy, publishes the copy unless it
is there, and keeps the lease until it exits; the leases of a process are in one table,
shared by all its calls. A collector renames copies away that nobody has a lease on. The
registrar serializes taking leases with probing for them. Every operation on files and
locks is a step of its own, and each one may fail.
-/

namespace MrBoxington.OutDir

/-- A lease in the table of a process. -/
structure Lease (π : Type) where
  name : π × ℕ
  inode : ℕ
deriving DecidableEq

/-- What `lease` does next. -/
inductive LeasePoint (π : Type) where
  | requesting
  | looking
  | registering
  | naming
  | created (name : π × ℕ)
  | opened (name : π × ℕ) (inode : ℕ)
  | registered
  | leased
  | failing
  | refused

/-- What publication does next. -/
inductive PublishPoint where
  | opening
  | waiting (inode : ℕ)
  | inspecting
  | copying
  | protecting
  | discarding
  | closing (ok : Bool)
  | stamping

/-- What `release` does next. -/
inductive ReleasePoint (π : Type) where
  | waiting
  | removing
  | unlinking (name : π × ℕ)
  | leaving

/-- Why a collector looks at a digest. -/
inductive Kind where
  | tree
  | leases
deriving DecidableEq

/-- What a collector looks at. -/
structure Job (δ : Type) where
  digest : δ
  kind : Kind
  dryRun : Bool

/-- What a collector does next. -/
inductive CollectPoint (π : Type) where
  | claiming
  | listing
  | probing (rest : List (π × ℕ))
  | pruning (name : π × ℕ) (rest : List (π × ℕ))
  | retiring
  | clearing
  | unpublishing
  | leaving

/-- What a thread does. -/
inductive Phase (π δ : Type) where
  | idle
  | leasing (digest : δ) (point : LeasePoint π)
  | publishing (digest : δ) (point : PublishPoint)
  | releasing (digest : δ) (point : ReleasePoint π)
  | selecting (dryRun : Bool)
  | collecting (job : Job δ) (point : CollectPoint π)

/-- The root directory and the processes that use it. -/
@[ext] structure State (τ π δ : Type) where
  alive : π → Bool
  registrar : Option τ
  mutex : π → Option τ
  table : π → δ → Option (Lease π)
  files : LeaseFiles.Disk δ (π × ℕ)
  publish : δ → LockFile.Disk τ
  tree : δ → Bool
  returned : π → δ → Bool
  phase : τ → Phase π δ

variable {τ π δ : Type} [DecidableEq τ] [DecidableEq π] [DecidableEq δ]

namespace State

/-- The state with another phase of a thread. -/
@[simps -fullyApplied]
def goto (s : State τ π δ) (t : τ) (phase : Phase π δ) : State τ π δ :=
  { s with phase := Function.update s.phase t phase }

/-- The registrar is taken or released. -/
@[simps -fullyApplied]
def setRegistrar (s : State τ π δ) (holder : Option τ) : State τ π δ :=
  { s with registrar := holder }

/-- The table of a process is taken or released. -/
@[simps -fullyApplied]
def setMutex (s : State τ π δ) (p : π) (holder : Option τ) : State τ π δ :=
  { s with mutex := Function.update s.mutex p holder }

/-- A lease is put in the table of a process or taken out. -/
@[simps -fullyApplied]
def setTable (s : State τ π δ) (p : π) (d : δ) (lease : Option (Lease π)) : State τ π δ :=
  { s with table := Function.update s.table p (Function.update (s.table p) d lease) }

/-- The lease files change. -/
@[simps -fullyApplied]
def setFiles (s : State τ π δ) (files : LeaseFiles.Disk δ (π × ℕ)) : State τ π δ :=
  { s with files := files }

/-- A publish lock changes. -/
@[simps -fullyApplied]
def setPublish (s : State τ π δ) (d : δ) (disk : LockFile.Disk τ) : State τ π δ :=
  { s with publish := Function.update s.publish d disk }

/-- A tree appears or disappears. -/
@[simps -fullyApplied]
def setTree (s : State τ π δ) (d : δ) (present : Bool) : State τ π δ :=
  { s with tree := Function.update s.tree d present }

/-- A tree is returned to a process. -/
@[simps -fullyApplied]
def giveTree (s : State τ π δ) (p : π) (d : δ) : State τ π δ :=
  { s with returned := Function.update s.returned p (Function.update (s.returned p) d true) }

end State

/-- A step of `lease`, called by the thread `t` of the process `p`. -/
inductive LeaseStep (p : π) (t : τ) (d : δ) :
    LeasePoint π → State τ π δ → Phase π δ → State τ π δ → Prop
  | enter (s : State τ π δ) (hfree : s.mutex p = none) :
      LeaseStep p t d .requesting s (.leasing d .looking) (s.setMutex p (some t))
  | found (s : State τ π δ) (hheld : s.table p d ≠ none) :
      LeaseStep p t d .looking s (.leasing d .leased) s
  | absent (s : State τ π δ) (hnone : s.table p d = none) :
      LeaseStep p t d .looking s (.leasing d .registering) s
  | register (s : State τ π δ) (hfree : s.registrar = none) :
      LeaseStep p t d .registering s (.leasing d .naming) (s.setRegistrar (some t))
  | registerFails (s : State τ π δ) : LeaseStep p t d .registering s (.leasing d .refused) s
  | create (s : State τ π δ) (random : ℕ) (hnew : s.files.path d (p, random) = none) :
      LeaseStep p t d .naming s (.leasing d (.created (p, random)))
        (s.setFiles (s.files.create d (p, random)))
  | createFails (s : State τ π δ) : LeaseStep p t d .naming s (.leasing d .failing) s
  | openFile (s : State τ π δ) (name : π × ℕ) (inode : ℕ)
      (files : LeaseFiles.Disk δ (π × ℕ)) (hopens : s.files.Opens d name inode files) :
      LeaseStep p t d (.created name) s (.leasing d (.opened name inode)) (s.setFiles files)
  | openFails (s : State τ π δ) (name : π × ℕ) :
      LeaseStep p t d (.created name) s (.leasing d .failing) s
  | lock (s : State τ π δ) (name : π × ℕ) (inode : ℕ)
      (hfree : s.files.locked inode = false) :
      LeaseStep p t d (.opened name inode) s (.leasing d .registered)
        ((s.setFiles (s.files.lock inode)).setTable p d (some ⟨name, inode⟩))
  | lockFails (s : State τ π δ) (name : π × ℕ) (inode : ℕ) :
      LeaseStep p t d (.opened name inode) s (.leasing d .failing) s
  | unregister (s : State τ π δ) :
      LeaseStep p t d .registered s (.leasing d .leased) (s.setRegistrar none)
  | leave (s : State τ π δ) :
      LeaseStep p t d .leased s (.publishing d .opening) (s.setMutex p none)
  | giveUp (s : State τ π δ) :
      LeaseStep p t d .failing s (.leasing d .refused) (s.setRegistrar none)
  | refuse (s : State τ π δ) : LeaseStep p t d .refused s .idle (s.setMutex p none)

/-- A step of the publication of a tree. -/
inductive PublishStep (p : π) (t : τ) (d : δ) :
    PublishPoint → State τ π δ → Phase π δ → State τ π δ → Prop
  | openLock (s : State τ π δ) (inode : ℕ) (hpath : (s.publish d).path = some inode) :
      PublishStep p t d .opening s (.publishing d (.waiting inode))
        (s.setPublish d ((s.publish d).openAt t inode))
  | createLock (s : State τ π δ) (hpath : (s.publish d).path = none) :
      PublishStep p t d .opening s (.publishing d (.waiting (s.publish d).next))
        (s.setPublish d ((s.publish d).create t))
  | openFails (s : State τ π δ) : PublishStep p t d .opening s (.publishing d (.closing false)) s
  | lock (s : State τ π δ) (inode : ℕ) (hfree : (s.publish d).holder inode = none) :
      PublishStep p t d (.waiting inode) s (.publishing d .inspecting)
        (s.setPublish d ((s.publish d).lock t inode))
  | lockFails (s : State τ π δ) (inode : ℕ) :
      PublishStep p t d (.waiting inode) s (.publishing d (.closing false)) s
  | present (s : State τ π δ) (htree : s.tree d = true) :
      PublishStep p t d .inspecting s (.publishing d (.closing true)) s
  | missing (s : State τ π δ) (htree : s.tree d = false) :
      PublishStep p t d .inspecting s (.publishing d .copying) s
  | copyFails (s : State τ π δ) : PublishStep p t d .copying s (.publishing d (.closing false)) s
  | rename (s : State τ π δ) :
      PublishStep p t d .copying s (.publishing d .protecting) (s.setTree d true)
  | renameTaken (s : State τ π δ) (htree : s.tree d = true) :
      PublishStep p t d .copying s (.publishing d (.closing true)) s
  | protect (s : State τ π δ) :
      PublishStep p t d .protecting s (.publishing d (.closing true)) s
  | protectFails (s : State τ π δ) :
      PublishStep p t d .protecting s (.publishing d .discarding) s
  | discard (s : State τ π δ) :
      PublishStep p t d .discarding s (.publishing d (.closing false)) (s.setTree d false)
  | discardFails (s : State τ π δ) :
      PublishStep p t d .discarding s (.publishing d (.closing false)) s
  | close (s : State τ π δ) :
      PublishStep p t d (.closing true) s (.publishing d .stamping)
        (s.setPublish d ((s.publish d).close t))
  | closeFailed (s : State τ π δ) :
      PublishStep p t d (.closing false) s (.releasing d .waiting)
        (s.setPublish d ((s.publish d).close t))
  | finish (s : State τ π δ) : PublishStep p t d .stamping s .idle (s.giveTree p d)

/-- A step of `release`. -/
inductive ReleaseStep (p : π) (t : τ) (d : δ) :
    ReleasePoint π → State τ π δ → Phase π δ → State τ π δ → Prop
  | enter (s : State τ π δ) (hfree : s.mutex p = none) :
      ReleaseStep p t d .waiting s (.releasing d .removing) (s.setMutex p (some t))
  | absent (s : State τ π δ) (hnone : s.table p d = none) :
      ReleaseStep p t d .removing s (.releasing d .leaving) s
  | remove (s : State τ π δ) (lease : Lease π) (hheld : s.table p d = some lease) :
      ReleaseStep p t d .removing s (.releasing d (.unlinking lease.name))
        ((s.setTable p d none).setFiles (s.files.unlock lease.inode))
  | unlink (s : State τ π δ) (name : π × ℕ) :
      ReleaseStep p t d (.unlinking name) s (.releasing d .leaving)
        (s.setFiles (s.files.unlink d name))
  | unlinkFails (s : State τ π δ) (name : π × ℕ) :
      ReleaseStep p t d (.unlinking name) s (.releasing d .leaving) s
  | leave (s : State τ π δ) : ReleaseStep p t d .leaving s .idle (s.setMutex p none)

/-- Where a collector goes on when no lease is held. -/
def Job.unleased (job : Job δ) : CollectPoint π :=
  match job.dryRun, job.kind with
  | true, _ => .leaving
  | false, .tree => .retiring
  | false, .leases => .clearing

/-- A step of a collector that looks at one digest. -/
inductive CollectStep (t : τ) (job : Job δ) :
    CollectPoint π → State τ π δ → CollectPoint π → State τ π δ → Prop
  | claim (s : State τ π δ) (hfree : s.registrar = none) :
      CollectStep t job .claiming s .listing (s.setRegistrar (some t))
  | list (s : State τ π δ) (names : List (π × ℕ))
      (hnames : ∀ name, name ∈ names ↔ s.files.path job.digest name ≠ none) :
      CollectStep t job .listing s (.probing names) s
  | listFails (s : State τ π δ) : CollectStep t job .listing s .leaving s
  | probe (s : State τ π δ) (name : π × ℕ) (rest : List (π × ℕ)) (inode : ℕ)
      (files : LeaseFiles.Disk δ (π × ℕ)) (hopens : s.files.Opens job.digest name inode files)
      (hfree : files.locked inode = false) :
      CollectStep t job (.probing (name :: rest)) s
        (if job.dryRun then .probing rest else .pruning name rest) (s.setFiles files)
  | skip (s : State τ π δ) (name : π × ℕ) (rest : List (π × ℕ))
      (hnone : s.files.path job.digest name = none) :
      CollectStep t job (.probing (name :: rest)) s (.probing rest) s
  | held (s : State τ π δ) (name : π × ℕ) (rest : List (π × ℕ)) (inode : ℕ)
      (files : LeaseFiles.Disk δ (π × ℕ)) (hopens : s.files.Opens job.digest name inode files)
      (hlocked : files.locked inode = true) :
      CollectStep t job (.probing (name :: rest)) s .leaving (s.setFiles files)
  | probeFails (s : State τ π δ) (names : List (π × ℕ)) :
      CollectStep t job (.probing names) s .leaving s
  | prune (s : State τ π δ) (name : π × ℕ) (rest : List (π × ℕ)) :
      CollectStep t job (.pruning name rest) s (.probing rest)
        (s.setFiles (s.files.unlink job.digest name))
  | pruneFails (s : State τ π δ) (name : π × ℕ) (rest : List (π × ℕ)) :
      CollectStep t job (.pruning name rest) s (.probing rest) s
  | unleased (s : State τ π δ) : CollectStep t job (.probing []) s job.unleased s
  | retire (s : State τ π δ) (htree : s.tree job.digest = true) :
      CollectStep t job .retiring s .clearing (s.setTree job.digest false)
  | retireMissing (s : State τ π δ) (htree : s.tree job.digest = false) :
      CollectStep t job .retiring s .clearing s
  | retireFails (s : State τ π δ) : CollectStep t job .retiring s .leaving s
  /-- The directory of lease files is removed file by file, as far as that is possible. -/
  | clear (s : State τ π δ) (name : π × ℕ) :
      CollectStep t job .clearing s .clearing (s.setFiles (s.files.unlink job.digest name))
  | cleared (s : State τ π δ) : CollectStep t job .clearing s .unpublishing s
  | unpublish (s : State τ π δ) :
      CollectStep t job .unpublishing s .leaving
        (s.setPublish job.digest (s.publish job.digest).unlink)
  | unpublishFails (s : State τ π δ) : CollectStep t job .unpublishing s .leaving s

/-- What a thread of a process that has not exited may do. Any tree may be old enough to
be collected, or over the budget. -/
inductive ThreadStep (owner : τ → π) (t : τ) : State τ π δ → State τ π δ → Prop
  | stabilize (s : State τ π δ) (d : δ) (hidle : s.phase t = .idle) :
      ThreadStep owner t s (s.goto t (.leasing d .requesting))
  | leasing {s s' : State τ π δ} {d : δ} {point : LeasePoint π} {next : Phase π δ}
      (hphase : s.phase t = .leasing d point)
      (hstep : LeaseStep (owner t) t d point s next s') : ThreadStep owner t s (s'.goto t next)
  | publishing {s s' : State τ π δ} {d : δ} {point : PublishPoint} {next : Phase π δ}
      (hphase : s.phase t = .publishing d point)
      (hstep : PublishStep (owner t) t d point s next s') : ThreadStep owner t s (s'.goto t next)
  | releasing {s s' : State τ π δ} {d : δ} {point : ReleasePoint π} {next : Phase π δ}
      (hphase : s.phase t = .releasing d point)
      (hstep : ReleaseStep (owner t) t d point s next s') : ThreadStep owner t s (s'.goto t next)
  | collect (s : State τ π δ) (dryRun : Bool) (hidle : s.phase t = .idle) :
      ThreadStep owner t s (s.goto t (.selecting dryRun))
  | selectTree (s : State τ π δ) (d : δ) (dryRun : Bool) (hphase : s.phase t = .selecting dryRun) :
      ThreadStep owner t s (s.goto t (.collecting ⟨d, .tree, dryRun⟩ .claiming))
  | selectLeases (s : State τ π δ) (d : δ) (hphase : s.phase t = .selecting false)
      (htree : s.tree d = false) :
      ThreadStep owner t s (s.goto t (.collecting ⟨d, .leases, false⟩ .claiming))
  | finish (s : State τ π δ) (dryRun : Bool) (hphase : s.phase t = .selecting dryRun) :
      ThreadStep owner t s (s.goto t .idle)
  | claimFails (s : State τ π δ) (job : Job δ) (hphase : s.phase t = .collecting job .claiming) :
      ThreadStep owner t s (s.goto t .idle)
  | collecting {s s' : State τ π δ} {job : Job δ} {point next : CollectPoint π}
      (hphase : s.phase t = .collecting job point) (hstep : CollectStep t job point s next s') :
      ThreadStep owner t s (s'.goto t (.collecting job next))
  | leave (s : State τ π δ) (job : Job δ) (hphase : s.phase t = .collecting job .leaving) :
      ThreadStep owner t s ((s.setRegistrar none).goto t (.selecting job.dryRun))

/-- How a process exits: it is dead at once, and its locks are dropped one after the other. -/
inductive ExitStep (owner : τ → π) : State τ π δ → State τ π δ → Prop
  | exit (s : State τ π δ) (p : π) :
      ExitStep owner s { s with alive := Function.update s.alive p false }
  | reap (s : State τ π δ) (t : τ) (hdead : s.alive (owner t) = false) :
      ExitStep owner s
        ({ s with
          registrar := if s.registrar = some t then none else s.registrar
          publish := fun d => (s.publish d).close t }.goto t .idle)
  | unlock (s : State τ π δ) (p : π) (d : δ) (lease : Lease π) (hdead : s.alive p = false)
      (hheld : s.table p d = some lease) :
      ExitStep owner s ((s.setTable p d none).setFiles (s.files.unlock lease.inode))

/-- One step of anybody. -/
def Step (owner : τ → π) (s s' : State τ π δ) : Prop :=
  ExitStep owner s s' ∨ ∃ t, s.alive (owner t) = true ∧ ThreadStep owner t s s'

end MrBoxington.OutDir
