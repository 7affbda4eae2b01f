import MrBoxington.Scheduler.Admission

/-!
# One admission attempt of a pool

A pool is a directory of lease files and waiter files, each locked for as long
as its holder lives. An attempt runs under the registrar lock: it reclaims the
files of dead holders, applies the advisory gates, and decides from the live
records whether to write a lease or to queue. Everything an attempt senses about
the machine is an explicit reading. Reports of the decision are not modelled.
-/

namespace MrBoxington.Scheduler

/-- Permit priority of a build. -/
inductive SchedulerPriority where
  | normal
  | low
  deriving DecidableEq, Repr

/-- The spelling used in records. -/
def SchedulerPriority.asStr : SchedulerPriority → String
  | .normal => "normal"
  | .low => "low"

/-- The name of a record file: the process that wrote it, by pid and token, and
a counter of that process. -/
structure FileName where
  process : ℕ
  nonce : ℕ
  deriving DecidableEq, Repr

/-- What a record file holds. -/
inductive Contents (α : Type) where
  | record (value : α)
  | empty
  | malformed
  deriving DecidableEq, Repr

/-- One file of the lease or the waiter directory. -/
structure RecordFile (α : Type) where
  name : FileName
  locked : Bool
  contents : Contents α
  deriving DecidableEq, Repr

/-- The part of a demand that its records carry. -/
structure Demand where
  name : String
  compileMode : Option String
  links : Bool

/-- The ledger key of a demand. -/
def ledgerKey (name : String) (links : Bool) : String :=
  if links then name ++ " [link]" else name

/-- The mode key written into the records of a demand. -/
def Demand.modeKey (demand : Demand) : String :=
  demand.compileMode.getD (ledgerKey demand.name demand.links)

/-- The pool as one process configured it. -/
structure Pool where
  capacity : UInt64
  domainCapacity : UInt64
  legacyDomainCapacity : UInt64
  memoryCapacity : UInt64
  domainMemoryCapacity : UInt64
  build : Option (String × UInt64)
  /-- Legacy memory share of one permit; zero disables the memory gates. -/
  bytesPerPermit : UInt64
  events : Bool
  priority : SchedulerPriority
  pressure : Bool
  pressureDomain : String
  /-- A pool always has a permit: construction raises its capacity to one. -/
  capacity_pos : 1 ≤ capacity

/-- The pressure state of a domain, as far as admission reads it. -/
structure PressureState where
  valid : Bool
  pressured : Bool
  recoveredMs : Option UInt64
  lastAdmissionMs : Option UInt64

/-- What one attempt senses of the machine. The priority stamp is read twice. -/
structure Readings where
  now : UInt64
  pid : UInt32
  pressure : Option PressureState
  resumesPending : Bool
  availableMemory : Option UInt64
  waitFreshForMemory : Bool
  waitFreshForCpu : Bool

/-- The queue entry an attempt carries along from earlier ones. -/
structure QueueEntry where
  ticket : UInt64
  file : FileName
  record : Waiting

/-- What the attempts of one admission share. -/
structure AdmissionState where
  queued : Option QueueEntry
  firstArrivalMs : UInt64

/-- One admitted compilation's capacity, held until it is dropped or its process
dies. -/
structure Permit where
  file : FileName
  lease : Lease

/-- The directory that the pools share, with what their processes hold. -/
structure PoolState where
  leases : List (RecordFile Lease)
  waiters : List (RecordFile Waiting)
  nonce : ℕ → ℕ
  permits : List Permit
  /-- Lease files whose permits are dropped and not yet removed by their holders. -/
  closing : List FileName

/-- How an attempt ends. -/
inductive Outcome where
  | gated (gate : String)
  | waiting
  | admitted (lease : FileName)
  | failed (error : String)
  deriving DecidableEq, Repr

/-- What a live lease that cannot be read counts as: the smallest it could be. -/
def unreadableLease : Lease where
  version := 1
  name := none
  modeKey := none
  weight := 1
  cpu := none
  memoryBytes := none
  priority := SchedulerPriority.normal.asStr
  buildId := none
  domain := none
  bytesPerPermit := 0

/-- A live lease as a scan sees it. -/
def readLease : Contents Lease → Lease
  | .record lease => { lease with weight := max lease.weight 1 }
  | .empty => unreadableLease
  | .malformed => unreadableLease

/-- The live leases, reclaiming any lease whose holder has died. -/
def scanLeases (files : List (RecordFile Lease)) : List (RecordFile Lease) × List Lease :=
  let live := files.filter RecordFile.locked
  (live, live.map (fun file => readLease file.contents))

/-- A live waiter's record, or nothing when it is leaving. -/
def readWaiter : Contents Waiting → Except String (Option Waiting)
  | .record waiter => .ok (some waiter)
  | .empty => .ok none
  | .malformed => .error "malformed waiter"

/-- The live waiters, reclaiming any entry whose holder has died. -/
def scanWaiters (files : List (RecordFile Waiting)) :
    Except String (List (RecordFile Waiting) × List Waiting) := do
  let live := files.filter RecordFile.locked
  let records ← live.mapM (fun file => readWaiter file.contents)
  return (live, records.filterMap id)

/-- Names tried before giving up on an unused one. -/
def leaseNameAttempts : ℕ := 8

/-- Create and lock a record file under the first unused name. Returns the next
counter value too. -/
def lockRecord {α : Type} (files : List (RecordFile α)) (process : ℕ) (record : α) :
    ℕ → ℕ → Option (RecordFile α) × ℕ
  | 0, nonce => (none, nonce)
  | attempts + 1, nonce =>
    if files.any (fun file => decide (file.name = ⟨process, nonce⟩)) then
      lockRecord files process record attempts (nonce + 1)
    else (some ⟨⟨process, nonce⟩, true, .record record⟩, nonce + 1)

namespace Pool

variable (pool : Pool)

/-- CPU headroom for waiting normal-priority work, never the whole pool. -/
def reserved (readings : Readings) : UInt64 :=
  if pool.priority = .low ∧ readings.waitFreshForCpu then
    min (max (pool.capacity / 4) 1) (pool.capacity - 1)
  else 0

/-- The budget left to this pool's requests by the headroom it yields. -/
def effectiveBudget (readings : Readings) : Resources :=
  let memoryHeadroom :=
    if pool.priority = .low ∧ readings.waitFreshForMemory ∧ 0 < pool.memoryCapacity then
      min (max (pool.memoryCapacity / 4) 1) (pool.memoryCapacity - 1)
    else 0
  { cpu := pool.capacity - pool.reserved readings
    memoryBytes := pool.memoryCapacity - memoryHeadroom }

/-- The record this pool queues for a request. -/
def waitingRecord (readings : Readings) (resources : Resources) (weight : UInt64)
    (demand : Option Demand) (firstArrivalMs ticket : UInt64) : Waiting where
  firstArrivalMs := if pool.events then some firstArrivalMs else none
  pid := if pool.events then some readings.pid else none
  name := demand.map Demand.name
  modeKey := demand.map Demand.modeKey
  ticket := ticket
  weight := weight
  priority := pool.priority.asStr
  domain := pool.pressureDomain
  domainCapacity := pool.legacyDomainCapacity
  domainCpuCap := some pool.domainCapacity
  globalCapacity := some pool.capacity
  cpuCap := some pool.capacity
  memCap := some pool.memoryCapacity
  domainMemoryCap := some pool.domainMemoryCapacity
  cpu := some resources.cpu
  memoryBytes := some resources.memoryBytes
  bytesPerPermit := pool.bytesPerPermit
  build := pool.build

/-- The request of one attempt: its record under the effective budget. -/
def request (readings : Readings) (resources : Resources) (weight : UInt64)
    (demand : Option Demand) (firstArrivalMs ticket : UInt64) : Waiting :=
  let budget := pool.effectiveBudget readings
  { pool.waitingRecord readings resources weight demand firstArrivalMs ticket with
    globalCapacity := some budget.cpu
    cpuCap := some budget.cpu
    memCap := some budget.memoryBytes }

/-- The lease record of an admitted request. -/
def leaseRecord (resources : Resources) (weight : UInt64) (demand : Option Demand) : Lease where
  name := demand.map Demand.name
  modeKey := demand.map Demand.modeKey
  version := 1
  cpu := some resources.cpu
  memoryBytes := some resources.memoryBytes
  weight := weight
  priority := pool.priority.asStr
  buildId := pool.build.map Prod.fst
  domain := some pool.pressureDomain
  bytesPerPermit := pool.bytesPerPermit

/-- The shortest time between admissions while a domain recovers. -/
def intervalMs : UInt64 := 500

/-- Whether the sampled pressure holds back an admission. -/
def pressureHolds (readings : Readings) : Bool :=
  pool.pressure && decide (0 < pool.bytesPerPermit) && readings.pressure.any fun state =>
    state.valid && (state.pressured || (state.recoveredMs.isSome &&
      state.lastAdmissionMs.any (fun last =>
        decide (U64.saturatingSub readings.now last < intervalMs))))

/-- The advisory gate that holds this attempt back. An idle pool passes all. -/
def gate (readings : Readings) (live : List Lease) (predicted : Option UInt64) : Option String :=
  if live.isEmpty then none
  else if pool.pressure && decide (0 < pool.bytesPerPermit) && readings.resumesPending then
    some "resumes-pending"
  else if pool.pressureHolds readings then some "pressure"
  else
    match predicted, readings.availableMemory with
    | some needed, some available => if available < needed then some "available-memory" else none
    | _, _ => none

end Pool

/-- The waiter files without that of a queue entry. -/
def withoutEntry (waiters : List (RecordFile Waiting)) (queued : Option QueueEntry) :
    List (RecordFile Waiting) :=
  waiters.filter (fun file => queued.all (fun entry => decide (file.name ≠ entry.file)))

namespace Pool

variable (pool : Pool)

/-- Queue a request that has to wait, or rewrite its record if that changed. A
new entry gets the ticket after the last one. -/
def enqueue (process : ℕ) (waiting : List Waiting) (request : Waiting)
    (state : AdmissionState) (dir : PoolState) : Outcome × AdmissionState × PoolState :=
  let write (record : Waiting) : Outcome × AdmissionState × PoolState :=
    match lockRecord dir.waiters process record leaseNameAttempts (dir.nonce process) with
    | (none, nonce) =>
      (.failed "failed to name a lease that was not already taken", state,
        { dir with nonce := Function.update dir.nonce process nonce })
    | (some file, nonce) =>
      (.waiting, { state with queued := some ⟨record.ticket, file.name, record⟩ },
        { dir with
          waiters := withoutEntry dir.waiters state.queued ++ [file]
          nonce := Function.update dir.nonce process nonce })
  match state.queued with
  | some entry => if entry.record = request then (.waiting, state, dir) else write request
  | none =>
    match U64.checkedAdd ((waiting.map Waiting.ticket).foldl max 0) 1 with
    | none => (.failed "scheduler queue exhausted", state, dir)
    | some ticket => write { request with ticket := ticket }

/-- Write the lease of an admitted request and leave the queue. -/
def grant (process : ℕ) (resources : Resources) (weight : UInt64) (demand : Option Demand)
    (state : AdmissionState) (dir : PoolState) : Outcome × AdmissionState × PoolState :=
  let lease := pool.leaseRecord resources weight demand
  match lockRecord dir.leases process lease leaseNameAttempts (dir.nonce process) with
  | (none, nonce) =>
    (.failed "failed to name a lease that was not already taken", state,
      { dir with nonce := Function.update dir.nonce process nonce })
  | (some file, nonce) =>
    (.admitted file.name, { state with queued := none },
      { dir with
        leases := dir.leases ++ [file]
        permits := ⟨file.name, lease⟩ :: dir.permits
        waiters := withoutEntry dir.waiters state.queued
        nonce := Function.update dir.nonce process nonce })

/-- One admission attempt under the registrar lock. -/
def tryAdmitInner (sort : TicketSort) (process : ℕ) (readings : Readings)
    (resources : Resources) (weight : UInt64) (predicted : Option UInt64)
    (demand : Option Demand) (state : AdmissionState) (dir : PoolState) :
    Outcome × AdmissionState × PoolState :=
  let (leases, live) := scanLeases dir.leases
  let dir := { dir with leases := leases }
  match pool.gate readings live predicted with
  | some gate =>
    -- A request that is held back leaves the queue.
    (.gated gate, { state with queued := none },
      { dir with waiters := withoutEntry dir.waiters state.queued })
  | none =>
    match scanWaiters dir.waiters with
    | .error error => (.failed error, state, dir)
    | .ok (waiters, waiting) =>
      let dir := { dir with waiters := waiters }
      let ticket := (state.queued.map QueueEntry.ticket).getD U64.max
      let request := pool.request readings resources weight demand state.firstArrivalMs ticket
      match admissionDecisionTraced sort (pool.effectiveBudget readings).cpu live waiting
          request with
      | .waiting => enqueue process waiting request state dir
      | _ => pool.grant process resources weight demand state dir

/-- An attempt, followed by leaving the queue when it failed. -/
def tryAdmitState (sort : TicketSort) (process : ℕ) (readings : Readings)
    (resources : Resources) (weight : UInt64) (predicted : Option UInt64)
    (demand : Option Demand) (state : AdmissionState) (dir : PoolState) :
    Outcome × AdmissionState × PoolState :=
  match pool.tryAdmitInner sort process readings resources weight predicted demand state dir with
  | (.failed error, state, dir) =>
    (.failed error, { state with queued := none },
      { dir with waiters := withoutEntry dir.waiters state.queued })
  | result => result

end Pool

/-- Nothing changed for the live leases: files of dead holders may be gone and
counters may have advanced. -/
structure PoolState.SameLeases (s t : PoolState) : Prop where
  leases : t.leases = s.leases.filter RecordFile.locked
  permits : t.permits = s.permits
  closing : t.closing = s.closing
  nonce : ∀ process, s.nonce process ≤ t.nonce process

/-- A lease was granted to `process` under a name it had not used. -/
structure PoolState.Grants (process : ℕ) (lease : Lease) (s t : PoolState) : Prop where
  granted : ∃ n, s.nonce process ≤ n ∧ n < t.nonce process ∧
    t.leases = s.leases.filter RecordFile.locked ++ [⟨⟨process, n⟩, true, .record lease⟩] ∧
    t.permits = ⟨⟨process, n⟩, lease⟩ :: s.permits
  closing : t.closing = s.closing
  nonce : ∀ process, s.nonce process ≤ t.nonce process

theorem le_update {nonce : ℕ → ℕ} {process next : ℕ} (h : nonce process ≤ next)
    (other : ℕ) : nonce other ≤ Function.update nonce process next other := by
  by_cases hsame : other = process
  · rw [hsame, Function.update_self]
    exact h
  · rw [Function.update_of_ne hsame]

/-- Locking a record never takes a nonce back. -/
theorem lockRecord_next_le {α : Type} (files : List (RecordFile α)) (process : ℕ) (record : α)
    (attempts nonce : ℕ) : nonce ≤ (lockRecord files process record attempts nonce).2 := by
  induction attempts generalizing nonce with
  | zero => exact Nat.le_refl _
  | succ attempts ih =>
    rw [lockRecord]
    split
    · exact (Nat.le_succ nonce).trans (ih (nonce + 1))
    · exact Nat.le_succ nonce

theorem lockRecord_some {α : Type} {files : List (RecordFile α)} {process : ℕ} {record : α}
    {attempts nonce next : ℕ} {file : RecordFile α}
    (h : lockRecord files process record attempts nonce = (some file, next)) :
    ∃ n, nonce ≤ n ∧ n < next ∧ file = ⟨⟨process, n⟩, true, .record record⟩ := by
  induction attempts generalizing nonce with
  | zero => exact absurd h (by simp [lockRecord])
  | succ attempts ih =>
    rw [lockRecord] at h
    split at h
    · obtain ⟨n, hle, hlt, hfile⟩ := ih h
      exact ⟨n, by omega, hlt, hfile⟩
    · obtain ⟨hfile, hnext⟩ := Prod.mk.inj h
      exact ⟨nonce, Nat.le_refl _, by omega, (Option.some.inj hfile).symm⟩

namespace Pool

variable (pool : Pool)

private theorem enqueue_leases (process : ℕ) (waiting : List Waiting) (request : Waiting)
    (state : AdmissionState) (dir : PoolState) :
    (enqueue process waiting request state dir).2.2.leases = dir.leases ∧
      (enqueue process waiting request state dir).2.2.permits = dir.permits ∧
      (enqueue process waiting request state dir).2.2.closing = dir.closing ∧
      ∀ other, dir.nonce other ≤ (enqueue process waiting request state dir).2.2.nonce other := by
  have hwrite := fun record => lockRecord_next_le dir.waiters process record leaseNameAttempts
    (dir.nonce process)
  unfold enqueue
  dsimp only
  split
  · split
    · exact ⟨rfl, rfl, rfl, fun _ => Nat.le_refl _⟩
    · split
      all_goals
        rename_i hlock
        have hnext := hwrite request
        rw [hlock] at hnext
        exact ⟨rfl, rfl, rfl, le_update hnext⟩
  · split
    · exact ⟨rfl, rfl, rfl, fun _ => Nat.le_refl _⟩
    · rename_i ticket _
      split
      all_goals
        rename_i hlock
        have hnext := hwrite { request with ticket := ticket }
        rw [hlock] at hnext
        exact ⟨rfl, rfl, rfl, le_update hnext⟩

private theorem grant_leases (process : ℕ) (resources : Resources) (weight : UInt64)
    (demand : Option Demand) (state : AdmissionState) (dir live : PoolState)
    (hleases : live.leases = dir.leases.filter RecordFile.locked)
    (hpermits : live.permits = dir.permits) (hclosing : live.closing = dir.closing)
    (hnonce : live.nonce = dir.nonce) :
    dir.SameLeases (pool.grant process resources weight demand state live).2.2 ∨
      dir.Grants process (pool.leaseRecord resources weight demand)
        (pool.grant process resources weight demand state live).2.2 := by
  have hnext := lockRecord_next_le live.leases process
    (pool.leaseRecord resources weight demand) leaseNameAttempts (live.nonce process)
  unfold grant
  dsimp only
  split
  · rename_i nonce hlock
    rw [hlock] at hnext
    left
    refine ⟨hleases, hpermits, hclosing, ?_⟩
    rw [← hnonce]
    exact le_update hnext
  · rename_i file nonce hlock
    rw [hlock] at hnext
    obtain ⟨n, hle, hlt, rfl⟩ := lockRecord_some hlock
    right
    refine ⟨⟨n, hnonce ▸ hle, ?_, ?_, ?_⟩, hclosing, ?_⟩
    · simpa using hlt
    · dsimp only
      rw [hleases]
    · dsimp only
      rw [hpermits]
    · rw [← hnonce]
      exact le_update hnext

/-- What an attempt can do to the leases: nothing, or grant one whose request
fits beside the live leases it read. -/
theorem tryAdmitState_cases (sort : TicketSort) (process : ℕ) (readings : Readings)
    (resources : Resources) (weight : UInt64) (predicted : Option UInt64)
    (demand : Option Demand) (state : AdmissionState) (dir : PoolState) :
    dir.SameLeases (pool.tryAdmitState sort process readings resources weight predicted demand
        state dir).2.2 ∨
      dir.Grants process (pool.leaseRecord resources weight demand)
          (pool.tryAdmitState sort process readings resources weight predicted demand state
            dir).2.2 ∧
        ∃ firstArrivalMs ticket, RequestFits (pool.effectiveBudget readings).cpu
          (scanLeases dir.leases).2
          (pool.request readings resources weight demand firstArrivalMs ticket) := by
  -- Leaving the queue after a failure touches waiters only, so the attempt decides.
  suffices hinner : ∀ result, pool.tryAdmitInner sort process readings resources weight
      predicted demand state dir = result →
      dir.SameLeases result.2.2 ∨
        dir.Grants process (pool.leaseRecord resources weight demand) result.2.2 ∧
          ∃ firstArrivalMs ticket, RequestFits (pool.effectiveBudget readings).cpu
            (scanLeases dir.leases).2
            (pool.request readings resources weight demand firstArrivalMs ticket) by
    have hresult := hinner _ rfl
    unfold tryAdmitState
    split
    · rename_i hfailed
      rw [hfailed] at hresult
      exact hresult.imp (fun h => ⟨h.leases, h.permits, h.closing, h.nonce⟩)
        (fun h => ⟨⟨h.1.granted, h.1.closing, h.1.nonce⟩, h.2⟩)
    · exact hresult
  rintro result rfl
  unfold tryAdmitInner
  dsimp only
  split
  · exact Or.inl ⟨rfl, rfl, rfl, fun _ => Nat.le_refl _⟩
  · split
    · exact Or.inl ⟨rfl, rfl, rfl, fun _ => Nat.le_refl _⟩
    · split
      · left
        obtain ⟨hleases, hpermits, hclosing, hnonce⟩ := enqueue_leases process _ _ state _
        exact ⟨hleases, hpermits, hclosing, hnonce⟩
      · rename_i waiters _ _ _ hdecision
        have hgrant := pool.grant_leases process resources weight demand state dir
          { dir with leases := dir.leases.filter RecordFile.locked, waiters := waiters }
          rfl rfl rfl rfl
        have hfits := ((admissionDecisionTraced_cases sort _ _ _ _).resolve_left hdecision).1
        exact hgrant.imp id (fun h => ⟨h, _, _, hfits⟩)

end Pool

end MrBoxington.Scheduler
