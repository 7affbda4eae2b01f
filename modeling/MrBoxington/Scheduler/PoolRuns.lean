import MrBoxington.Lib.Budget
import MrBoxington.Lib.Runs
import MrBoxington.Scheduler.Pool

/-!
# The shared directory never overcommits the machine

Pools of any number of processes attempt admissions on one directory, drop
permits, and die. Each attempt is atomic under the registrar lock; dropping a
permit unlocks its file and removes it in two steps. In every reachable state
the live leases stay within every shared ceiling, except that a charge of any
size may stand alone on its axis.
-/

namespace MrBoxington.Scheduler

/-- The ceilings that all pools of one directory agree on. -/
structure SharedConfig where
  capacity : UInt64
  memoryCapacity : UInt64
  domainCapacity : String → UInt64
  domainMemoryCapacity : String → UInt64
  buildCapacity : String → UInt64

/-- A pool configured with the shared ceilings. -/
structure Pool.Configured (config : SharedConfig) (pool : Pool) : Prop where
  capacity : pool.capacity = config.capacity
  memoryCapacity : pool.memoryCapacity = config.memoryCapacity
  domainCapacity : pool.domainCapacity = config.domainCapacity pool.pressureDomain
  domainMemoryCapacity :
    pool.domainMemoryCapacity = config.domainMemoryCapacity pool.pressureDomain
  build : ∀ id ceiling, pool.build = some (id, ceiling) → ceiling = config.buildCapacity id

namespace RecordFile

variable {α : Type}

/-- The file after its holder closed it: unlocked and emptied. -/
def release (file : RecordFile α) : RecordFile α :=
  { file with locked := false, contents := .empty }

/-- The file after its holder died: unlocked as it was. -/
def abandon (file : RecordFile α) : RecordFile α := { file with locked := false }

end RecordFile

/-- Apply `change` to the files that satisfy `which`. -/
def changeFiles {α : Type} (which : FileName → Bool) (change : RecordFile α → RecordFile α)
    (files : List (RecordFile α)) : List (RecordFile α) :=
  files.map (fun file => if which file.name then change file else file)

namespace PoolState

/-- A permit is dropped: its lease is unlocked and emptied. -/
def dropPermit (name : FileName) (s : PoolState) : PoolState :=
  { s with
    leases := changeFiles (fun other => decide (other = name)) RecordFile.release s.leases
    permits := s.permits.filter (fun permit => !decide (permit.file = name))
    closing := name :: s.closing }

/-- The holder of a dropped permit removes its lease file, if it is there. -/
def removeLease (name : FileName) (s : PoolState) : PoolState :=
  { s with
    leases := s.leases.filter (fun file => decide (file.name ≠ name))
    closing := s.closing.erase name }

/-- A queue entry is emptied by its holder, still locked. -/
def releaseWaiter (name : FileName) (s : PoolState) : PoolState :=
  { s with
    waiters := changeFiles (fun other => decide (other = name))
      (fun file => { file with contents := .empty }) s.waiters }

/-- An emptied queue entry is unlocked. -/
def unlockWaiter (name : FileName) (s : PoolState) : PoolState :=
  { s with
    waiters := changeFiles (fun other => decide (other = name)) RecordFile.release s.waiters }

/-- The holder of an unlocked queue entry removes its file. -/
def removeWaiter (name : FileName) (s : PoolState) : PoolState :=
  { s with
    waiters := s.waiters.filter (fun file => decide (file.name ≠ name) || file.locked) }

/-- A process dies: the kernel drops all its locks. -/
def die (process : ℕ) (s : PoolState) : PoolState :=
  { s with
    leases := changeFiles (fun name => decide (name.process = process)) RecordFile.abandon
      s.leases
    waiters := changeFiles (fun name => decide (name.process = process)) RecordFile.abandon
      s.waiters
    permits := s.permits.filter (fun permit => !decide (permit.file.process = process))
    closing := s.closing.filter (fun name => !decide (name.process = process)) }

end PoolState

/-- One step of the processes that share the directory. -/
inductive PoolStep (config : SharedConfig) (sort : TicketSort) : PoolState → PoolState → Prop
  /-- An admission attempt of any process, with any charges, readings and queue
  entry, listing the directories in any order. -/
  | attempt {s : PoolState} (process : ℕ) (pool : Pool) (readings : Readings)
      (resources : Resources) (weight : UInt64) (predicted : Option UInt64)
      (demand : Option Demand) (state : AdmissionState) (leases : List (RecordFile Lease))
      (waiters : List (RecordFile Waiting)) (hpool : pool.Configured config)
      (hleases : leases.Perm s.leases) (hwaiters : waiters.Perm s.waiters) :
      PoolStep config sort s
        (pool.tryAdmitState sort process readings resources weight predicted demand state
          { s with leases := leases, waiters := waiters }).2.2
  /-- An attempt cut short by a failed file operation. It may have reclaimed dead
  files and left unlocked ones, but has not locked or unlocked a lease. -/
  | cutShort {s : PoolState} (leases : List (RecordFile Lease))
      (waiters : List (RecordFile Waiting)) (nonce : ℕ → ℕ)
      (hleases : (leases.filter RecordFile.locked).Perm (s.leases.filter RecordFile.locked))
      (hnonce : ∀ process, s.nonce process ≤ nonce process) :
      PoolStep config sort s { s with leases := leases, waiters := waiters, nonce := nonce }
  | dropPermit {s : PoolState} (name : FileName)
      (hheld : ∃ permit ∈ s.permits, permit.file = name) :
      PoolStep config sort s (s.dropPermit name)
  | removeLease {s : PoolState} (name : FileName) (hclosing : name ∈ s.closing) :
      PoolStep config sort s (s.removeLease name)
  | releaseWaiter {s : PoolState} (name : FileName) : PoolStep config sort s (s.releaseWaiter name)
  | unlockWaiter {s : PoolState} (name : FileName) : PoolStep config sort s (s.unlockWaiter name)
  | removeWaiter {s : PoolState} (name : FileName) : PoolStep config sort s (s.removeWaiter name)
  | die {s : PoolState} (process : ℕ) : PoolStep config sort s (s.die process)

/-- A directory that nobody uses: whatever files are left are unlocked. -/
structure PoolState.Idle (s : PoolState) : Prop where
  leases : ∀ file ∈ s.leases, file.locked = false
  permits : s.permits = []
  closing : s.closing = []

/-- The leases of live holders. -/
def PoolState.live (s : PoolState) : List Lease := s.permits.map Permit.lease

/-- The charges of a list of leases on one axis. -/
def charges (axis : Resources → UInt64) (leases : List Lease) : List ℕ :=
  leases.map (fun lease => (axis lease.resources).toNat)

/-- The leases stay within every shared ceiling, up to one lone charge on each
axis of each scope. -/
structure WithinCeilings (config : SharedConfig) (live : List Lease) : Prop where
  cpu : Budget.Bounded config.capacity.toNat (charges Resources.cpu live)
  memory : config.memoryCapacity ≠ 0 →
    Budget.Bounded config.memoryCapacity.toNat (charges Resources.memoryBytes live)
  domainCpu : ∀ domain, Budget.Bounded (config.domainCapacity domain).toNat
    (charges Resources.cpu (live.filter (fun lease => lease.inDomain domain)))
  domainMemory : ∀ domain, config.domainMemoryCapacity domain ≠ 0 →
    Budget.Bounded (config.domainMemoryCapacity domain).toNat
      (charges Resources.memoryBytes (live.filter (fun lease => lease.inDomain domain)))
  buildCpu : ∀ id, Budget.Bounded (config.buildCapacity id).toNat
    (charges Resources.cpu (live.filter (fun lease => lease.inBuild id)))

private theorem WithinCeilings.sublist {config : SharedConfig} {live kept : List Lease}
    (hwithin : WithinCeilings config live) (hsub : kept.Sublist live) :
    WithinCeilings config kept where
  cpu := hwithin.cpu.sublist (hsub.map _)
  memory h := (hwithin.memory h).sublist (hsub.map _)
  domainCpu domain := (hwithin.domainCpu domain).sublist ((hsub.filter _).map _)
  domainMemory domain h := (hwithin.domainMemory domain h).sublist ((hsub.filter _).map _)
  buildCpu id := (hwithin.buildCpu id).sublist ((hsub.filter _).map _)

private theorem WithinCeilings.perm {config : SharedConfig} {live other : List Lease}
    (hwithin : WithinCeilings config live) (hperm : live.Perm other) :
    WithinCeilings config other where
  cpu := hwithin.cpu.perm (hperm.map _)
  memory h := (hwithin.memory h).perm (hperm.map _)
  domainCpu domain := (hwithin.domainCpu domain).perm ((hperm.filter _).map _)
  domainMemory domain h := (hwithin.domainMemory domain h).perm ((hperm.filter _).map _)
  buildCpu id := (hwithin.buildCpu id).perm ((hperm.filter _).map _)

private theorem charges_le {axis : Resources → UInt64} {leases : List Lease} :
    ∀ charge ∈ charges axis leases, charge ≤ 18446744073709551615 := by
  intro charge hmem
  obtain ⟨lease, -, rfl⟩ := List.mem_map.mp hmem
  exact U64.toNat_le_max _

/-- Under the invariant the clamped usage is the true one, so a charge that the
pool finds to fit under a budget no larger than the ceiling keeps the bound. -/
theorem bounded_cons_of_axisFits {axis : Resources → UInt64} {leases : List Lease}
    {charge budget ceiling : UInt64}
    (hbounded : Budget.Bounded ceiling.toNat (charges axis leases))
    (hbudget : budget.toNat ≤ ceiling.toNat)
    (hfits : AxisFits (held axis leases) charge.toNat budget.toNat) :
    Budget.Bounded ceiling.toNat (charge.toNat :: charges axis leases) := by
  have hword := hbounded.sum_le (U64.toNat_le_max ceiling) charges_le
  have hheld : held axis leases = (charges axis leases).sum := rfl
  apply Budget.Bounded.cons
  rcases hfits with hempty | hroom
  · exact Or.inl hempty
  · right
    rw [hheld] at hroom
    omega

private theorem headroom_bounds {total : UInt64} (hpos : 1 ≤ total.toNat) :
    (total - min (max (total / 4) 1) (total - 1)).toNat ≤ total.toNat ∧
      1 ≤ (total - min (max (total / 4) 1) (total - 1)).toNat := by
  have hone : (total - 1).toNat = total.toNat - 1 :=
    UInt64.toNat_sub_of_le _ _ (UInt64.le_iff_toNat_le.mpr hpos)
  have hmin : (min (max (total / 4) 1) (total - 1)).toNat ≤ total.toNat - 1 := by
    rw [← hone]
    change UInt64.toNat (if max (total / 4) 1 ≤ total - 1 then _ else _) ≤ _
    split
    · rename_i hle
      exact UInt64.le_iff_toNat_le.mp hle
    · exact Nat.le_refl _
  have hsub : (total - min (max (total / 4) 1) (total - 1)).toNat =
      total.toNat - (min (max (total / 4) 1) (total - 1)).toNat :=
    UInt64.toNat_sub_of_le _ _ (UInt64.le_iff_toNat_le.mpr (by omega))
  omega

private theorem Pool.effectiveBudget_le (pool : Pool) (readings : Readings) :
    (pool.effectiveBudget readings).cpu.toNat ≤ pool.capacity.toNat ∧
      (pool.effectiveBudget readings).memoryBytes.toNat ≤ pool.memoryCapacity.toNat ∧
      (pool.memoryCapacity ≠ 0 → (pool.effectiveBudget readings).memoryBytes ≠ 0) := by
  refine ⟨?_, ?_, ?_⟩
  · unfold Pool.effectiveBudget Pool.reserved
    dsimp only
    split
    · exact (headroom_bounds (UInt64.le_iff_toNat_le.mp pool.capacity_pos)).1
    · simp
  · unfold Pool.effectiveBudget
    dsimp only
    split
    · rename_i hyield
      exact (headroom_bounds (UInt64.lt_iff_toNat_lt.mp hyield.2.2)).1
    · simp
  · intro hlimited
    unfold Pool.effectiveBudget
    dsimp only
    split
    · rename_i hyield
      have hleft := (headroom_bounds (UInt64.lt_iff_toNat_lt.mp hyield.2.2)).2
      intro hzero
      rw [hzero] at hleft
      exact absurd hleft (by decide)
    · simpa using hlimited

private theorem WithinCeilings.cons {config : SharedConfig} {pool : Pool} {readings : Readings}
    {resources : Resources} {weight firstArrivalMs ticket : UInt64} {demand : Option Demand}
    {live : List Lease} (hpool : pool.Configured config) (hwithin : WithinCeilings config live)
    (hfits : RequestFits (pool.effectiveBudget readings).cpu live
      (pool.request readings resources weight demand firstArrivalMs ticket)) :
    WithinCeilings config
      (readLease (.record (pool.leaseRecord resources weight demand)) :: live) := by
  obtain ⟨hcpuBudget, hmemoryBudget, hlimited⟩ := pool.effectiveBudget_le readings
  obtain ⟨hcpu, hmemory⟩ := Resources.fits_scopeUsed_iff.mp hfits.global
  obtain ⟨hdomainCpu, hdomainMemory⟩ := Resources.fits_scopeUsed_iff.mp hfits.domain
  have hbuild := buildFits_iff.mp hfits.build
  rw [hpool.capacity] at hcpuBudget
  rw [hpool.memoryCapacity] at hmemoryBudget hlimited
  refine ⟨?_, ?_, ?_, ?_, ?_⟩
  · exact bounded_cons_of_axisFits hwithin.cpu hcpuBudget hcpu
  · intro hbounded
    exact bounded_cons_of_axisFits (hwithin.memory hbounded) hmemoryBudget
      (hmemory (hlimited hbounded))
  · intro domain
    by_cases hdomain : pool.pressureDomain = domain
    · subst hdomain
      rw [List.filter_cons_of_pos (by simp [Lease.inDomain, readLease, Pool.leaseRecord])]
      exact bounded_cons_of_axisFits (hwithin.domainCpu _)
        (hpool.domainCapacity ▸ Nat.le_refl _) hdomainCpu
    · rw [List.filter_cons_of_neg (by simp [Lease.inDomain, readLease, Pool.leaseRecord, hdomain])]
      exact hwithin.domainCpu domain
  · intro domain hbounded
    by_cases hdomain : pool.pressureDomain = domain
    · subst hdomain
      rw [List.filter_cons_of_pos (by simp [Lease.inDomain, readLease, Pool.leaseRecord])]
      have hown : pool.domainMemoryCapacity ≠ 0 := hpool.domainMemoryCapacity ▸ hbounded
      exact bounded_cons_of_axisFits (hwithin.domainMemory _ hbounded)
        (hpool.domainMemoryCapacity ▸ Nat.le_refl _) (hdomainMemory hown)
    · rw [List.filter_cons_of_neg (by simp [Lease.inDomain, readLease, Pool.leaseRecord, hdomain])]
      exact hwithin.domainMemory domain hbounded
  · intro id
    by_cases hid : pool.build.map Prod.fst = some id
    · obtain ⟨⟨id', ceiling⟩, hsome, rfl⟩ := Option.map_eq_some_iff.mp hid
      rw [List.filter_cons_of_pos (by simp [Lease.inBuild, readLease, Pool.leaseRecord, hid])]
      exact bounded_cons_of_axisFits (hwithin.buildCpu _)
        (hpool.build _ _ hsome ▸ Nat.le_refl _) (hbuild _ _ hsome)
    · rw [List.filter_cons_of_neg (by simp [Lease.inBuild, readLease, Pool.leaseRecord, hid])]
      exact hwithin.buildCpu id

/-- The lease file of a permit. -/
def Permit.recordFile (permit : Permit) : RecordFile Lease :=
  ⟨permit.file, true, .record permit.lease⟩

/-- What holds in every state of the shared directory. -/
structure PoolInv (config : SharedConfig) (s : PoolState) : Prop where
  coherent : (s.leases.filter RecordFile.locked).Perm (s.permits.map Permit.recordFile)
  permits_counted : ∀ permit ∈ s.permits, permit.file.nonce < s.nonce permit.file.process
  closing_counted : ∀ name ∈ s.closing, name.nonce < s.nonce name.process
  closing_dropped : ∀ name ∈ s.closing, ∀ permit ∈ s.permits, permit.file ≠ name
  charged : ∀ permit ∈ s.permits,
    permit.lease.cpu.isSome = true ∧ permit.lease.memoryBytes.isSome = true
  within : WithinCeilings config (scanLeases s.leases).2

private theorem scanLeases_of_locked {files other : List (RecordFile Lease)}
    (hlocked : other.filter RecordFile.locked = files) :
    (scanLeases other).2 = files.map (fun file => readLease file.contents) := by
  rw [← hlocked]
  rfl

private theorem filter_changeFiles {α : Type} {which : FileName → Bool}
    {change : RecordFile α → RecordFile α} (hchange : ∀ file, (change file).locked = false)
    (files : List (RecordFile α)) :
    (changeFiles which change files).filter RecordFile.locked =
      (files.filter RecordFile.locked).filter (fun file => !which file.name) := by
  induction files with
  | nil => rfl
  | cons file files ih =>
    simp only [changeFiles, List.map_cons] at ih ⊢
    by_cases hwhich : which file.name = true
    · rw [if_pos hwhich, List.filter_cons_of_neg (by simp [hchange]), ih]
      by_cases hlocked : file.locked = true
      · rw [List.filter_cons_of_pos hlocked, List.filter_cons_of_neg (by simp [hwhich])]
      · rw [List.filter_cons_of_neg hlocked]
    · rw [if_neg hwhich]
      by_cases hlocked : file.locked = true
      · rw [List.filter_cons_of_pos hlocked, List.filter_cons_of_pos hlocked,
          List.filter_cons_of_pos (by simpa using hwhich), ih]
      · rw [List.filter_cons_of_neg hlocked, List.filter_cons_of_neg hlocked, ih]

/-- Releasing the permits whose files satisfy `which`, and unlocking those
files, keeps the invariant of the rest. -/
theorem PoolInv.release {config : SharedConfig} {s : PoolState} (hinv : PoolInv config s)
    {which : FileName → Bool} {change : RecordFile Lease → RecordFile Lease}
    (hchange : ∀ file, (change file).locked = false)
    {waiters : List (RecordFile Waiting)} {closing : List FileName}
    (hcounted : ∀ name ∈ closing, name.nonce < s.nonce name.process)
    (hdropped : ∀ name ∈ closing, ∀ permit ∈ s.permits, which permit.file = false →
      permit.file ≠ name) :
    PoolInv config
      { leases := changeFiles which change s.leases
        waiters := waiters
        nonce := s.nonce
        permits := s.permits.filter (fun permit => !which permit.file)
        closing := closing } where
  coherent := by
    dsimp only
    rw [filter_changeFiles hchange]
    have hperm := hinv.coherent.filter (fun file => !which file.name)
    rwa [List.filter_map] at hperm
  permits_counted permit hmem := hinv.permits_counted permit (List.mem_of_mem_filter hmem)
  closing_counted := hcounted
  closing_dropped name hname permit hmem := by
    obtain ⟨hpermit, hwhich⟩ := List.mem_filter.mp hmem
    exact hdropped name hname permit hpermit (by simpa using hwhich)
  charged permit hmem := hinv.charged permit (List.mem_of_mem_filter hmem)
  within := by
    rw [scanLeases_of_locked (filter_changeFiles hchange s.leases)]
    exact hinv.within.sublist (List.filter_sublist.map _)

private theorem PoolInv.sameLocked {config : SharedConfig} {s t : PoolState}
    (hinv : PoolInv config s)
    (hleases : (t.leases.filter RecordFile.locked).Perm (s.leases.filter RecordFile.locked))
    (hpermits : t.permits = s.permits) (hclosing : ∀ name ∈ t.closing, name ∈ s.closing)
    (hnonce : ∀ process, s.nonce process ≤ t.nonce process) : PoolInv config t where
  coherent := by
    rw [hpermits]
    exact hleases.trans hinv.coherent
  permits_counted permit hmem := by
    rw [hpermits] at hmem
    exact (hinv.permits_counted permit hmem).trans_le (hnonce _)
  closing_counted name hname :=
    (hinv.closing_counted name (hclosing name hname)).trans_le (hnonce _)
  closing_dropped name hname := by
    rw [hpermits]
    exact hinv.closing_dropped name (hclosing name hname)
  charged := by
    rw [hpermits]
    exact hinv.charged
  within := hinv.within.perm (hleases.symm.map _)

private theorem PoolInv.grant {config : SharedConfig} {s t : PoolState} {pool : Pool}
    {readings : Readings} {process : ℕ} {resources : Resources}
    {weight firstArrivalMs ticket : UInt64} {demand : Option Demand}
    (hinv : PoolInv config s) (hpool : pool.Configured config)
    (hgrants : s.Grants process (pool.leaseRecord resources weight demand) t)
    (hfits : RequestFits (pool.effectiveBudget readings).cpu (scanLeases s.leases).2
      (pool.request readings resources weight demand firstArrivalMs ticket)) :
    PoolInv config t := by
  obtain ⟨n, hle, hlt, hleases, hpermits⟩ := hgrants.granted
  have hlocked : t.leases.filter RecordFile.locked = s.leases.filter RecordFile.locked ++
      [⟨⟨process, n⟩, true, .record (pool.leaseRecord resources weight demand)⟩] := by
    rw [hleases, List.filter_append, List.filter_filter]
    simp
  refine ⟨?_, ?_, ?_, ?_, ?_, ?_⟩
  · rw [hlocked, hpermits, List.map_cons]
    exact (List.perm_append_singleton _ _).trans (hinv.coherent.cons _)
  · rw [hpermits]
    intro permit hmem
    rcases List.mem_cons.mp hmem with rfl | hmem
    · exact hlt
    · exact (hinv.permits_counted permit hmem).trans_le (hgrants.nonce _)
  · rw [hgrants.closing]
    exact fun name hname => (hinv.closing_counted name hname).trans_le (hgrants.nonce _)
  · rw [hgrants.closing, hpermits]
    intro name hname permit hmem
    rcases List.mem_cons.mp hmem with rfl | hmem
    · -- The new name is at or past the counter, the names being dropped are before it.
      rintro rfl
      exact absurd (hinv.closing_counted _ hname) (Nat.not_lt.mpr hle)
    · exact hinv.closing_dropped name hname permit hmem
  · rw [hpermits]
    intro permit hmem
    rcases List.mem_cons.mp hmem with rfl | hmem
    · exact ⟨rfl, rfl⟩
    · exact hinv.charged permit hmem
  · rw [scanLeases_of_locked hlocked, List.map_append]
    exact (hinv.within.cons hpool hfits).perm (List.perm_append_singleton _ _).symm

private theorem PoolInv.step {config : SharedConfig} {sort : TicketSort} {s t : PoolState}
    (hinv : PoolInv config s) (hstep : PoolStep config sort s t) : PoolInv config t := by
  cases hstep with
  | attempt process pool readings resources weight predicted demand state leases waiters hpool
      hleases hwaiters =>
    have hlisted : PoolInv config { s with leases := leases, waiters := waiters } :=
      hinv.sameLocked (hleases.filter _) rfl (fun _ h => h) (fun _ => Nat.le_refl _)
    rcases pool.tryAdmitState_cases sort process readings resources weight predicted demand state
      { s with leases := leases, waiters := waiters } with hsame | ⟨hgrants, _, _, hfits⟩
    · refine hlisted.sameLocked ?_ hsame.permits (fun name h => hsame.closing ▸ h) hsame.nonce
      rw [hsame.leases, List.filter_filter]
      simp
    · exact hlisted.grant hpool hgrants hfits
  | cutShort leases waiters nonce hleases hnonce =>
    exact hinv.sameLocked hleases rfl (fun _ h => h) hnonce
  | dropPermit name hheld =>
    obtain ⟨held, hmem, rfl⟩ := hheld
    refine hinv.release (fun _ => rfl) ?_ ?_
    · intro name hname
      rcases List.mem_cons.mp hname with rfl | hname
      · exact hinv.permits_counted held hmem
      · exact hinv.closing_counted name hname
    · intro name hname permit hpermit hother
      rcases List.mem_cons.mp hname with rfl | hname
      · simpa using hother
      · exact hinv.closing_dropped name hname permit hpermit
  | removeLease name hclosing =>
    refine hinv.sameLocked ?_ rfl (fun _ h => List.mem_of_mem_erase h) (fun _ => Nat.le_refl _)
    -- The removed file belongs to no permit, so it is not among the locked ones.
    have hkept : ∀ file ∈ s.leases, file.locked = true → file.name ≠ name := by
      intro file hfile hlocked
      have hmem := hinv.coherent.mem_iff.mp (List.mem_filter.mpr ⟨hfile, hlocked⟩)
      obtain ⟨permit, hpermit, rfl⟩ := List.mem_map.mp hmem
      exact hinv.closing_dropped name hclosing permit hpermit
    rw [PoolState.removeLease, List.filter_filter]
    apply List.Perm.of_eq
    apply List.filter_congr
    intro file hfile
    by_cases hlocked : file.locked = true
    · simp [hlocked, hkept file hfile hlocked]
    · simp [hlocked]
  | releaseWaiter name =>
    exact hinv.sameLocked (List.Perm.refl _) rfl (fun _ h => h) (fun _ => Nat.le_refl _)
  | unlockWaiter name =>
    exact hinv.sameLocked (List.Perm.refl _) rfl (fun _ h => h) (fun _ => Nat.le_refl _)
  | removeWaiter name =>
    exact hinv.sameLocked (List.Perm.refl _) rfl (fun _ h => h) (fun _ => Nat.le_refl _)
  | die process =>
    refine hinv.release (fun _ => rfl) ?_ ?_
    · exact fun name hname => hinv.closing_counted name (List.mem_of_mem_filter hname)
    · exact fun name hname permit hpermit _ =>
        hinv.closing_dropped name (List.mem_of_mem_filter hname) permit hpermit

private theorem PoolInv.of_idle {config : SharedConfig} {s : PoolState} (hidle : s.Idle) :
    PoolInv config s := by
  have hlocked : s.leases.filter RecordFile.locked = [] := by
    rw [List.filter_eq_nil_iff]
    intro file hfile
    simp [hidle.leases file hfile]
  have hnil : WithinCeilings config [] :=
    ⟨Budget.Bounded.nil _, fun _ => Budget.Bounded.nil _, fun _ => Budget.Bounded.nil _,
      fun _ _ => Budget.Bounded.nil _, fun _ => Budget.Bounded.nil _⟩
  refine ⟨?_, ?_, ?_, ?_, ?_, ?_⟩
  · rw [hlocked, hidle.permits, List.map_nil]
  · simp [hidle.permits]
  · simp [hidle.closing]
  · simp [hidle.closing]
  · simp [hidle.permits]
  · rw [scanLeases_of_locked hlocked]
    exact hnil

private theorem PoolInv.live_within {config : SharedConfig} {s : PoolState}
    (hinv : PoolInv config s) :
    WithinCeilings config s.live := by
  have hread : WithinCeilings config
      (s.permits.map (fun permit => readLease (.record permit.lease))) := by
    have hperm := hinv.coherent.map (fun file => readLease file.contents)
    rw [List.map_map] at hperm
    exact hinv.within.perm hperm
  have hcharges : ∀ (axis : Resources → UInt64) (keep : Lease → Bool),
      (∀ lease, keep (readLease (.record lease)) = keep lease) →
      charges axis (s.live.filter keep) =
        charges axis ((s.permits.map (fun permit => readLease (.record permit.lease))).filter
          keep) := by
    intro axis keep hkeep
    rw [PoolState.live, charges, charges, List.filter_map, List.filter_map, List.map_map,
      List.map_map]
    have hsame : (keep ∘ fun permit : Permit => readLease (.record permit.lease)) =
        keep ∘ Permit.lease := funext fun permit => hkeep permit.lease
    rw [hsame]
    apply List.map_congr_left
    intro permit hmem
    obtain ⟨hcpu, hmemory⟩ := hinv.charged permit (List.mem_of_mem_filter hmem)
    obtain ⟨cpu, hcpu⟩ := Option.isSome_iff_exists.mp hcpu
    obtain ⟨memory, hmemory⟩ := Option.isSome_iff_exists.mp hmemory
    simp [readLease, Lease.resources, recordResources, hcpu, hmemory]
  have hall := fun axis => hcharges axis (fun _ => true) (fun _ => rfl)
  simp only [List.filter_true] at hall
  refine ⟨?_, ?_, ?_, ?_, ?_⟩
  · rw [hall]
    exact hread.cpu
  · rw [hall]
    exact hread.memory
  · intro domain
    rw [hcharges _ _ (fun _ => rfl)]
    exact hread.domainCpu domain
  · intro domain
    rw [hcharges _ _ (fun _ => rfl)]
    exact hread.domainMemory domain
  · intro id
    rw [hcharges _ _ (fun _ => rfl)]
    exact hread.buildCpu id

/-- In every state that pools with the same ceilings reach on a shared directory,
by any interleaving of attempts, permit drops and deaths, the live leases stay
within every ceiling, up to one lone charge on each axis of each scope. -/
theorem poolReachable_withinCeilings {config : SharedConfig} {sort : TicketSort} {s : PoolState}
    (hreach : Runs.Reachable PoolState.Idle (PoolStep config sort) s) :
    WithinCeilings config s.live :=
  (hreach.invariant (fun _ hidle => PoolInv.of_idle hidle)
    (fun _ _ hinv hstep => PoolInv.step hinv hstep)).live_within

/-- Four cores and 100 bytes, with three cores for each build. -/
def smallConfig : SharedConfig where
  capacity := 4
  memoryCapacity := 100
  domainCapacity _ := 4
  domainMemoryCapacity _ := 0
  buildCapacity _ := 3

/-- A pool under those ceilings. -/
def smallPool : Pool where
  capacity := 4
  domainCapacity := 4
  legacyDomainCapacity := 4
  memoryCapacity := 100
  domainMemoryCapacity := 0
  build := some ("build", 3)
  bytesPerPermit := 25
  events := false
  priority := .low
  pressure := true
  pressureDomain := "domain"
  capacity_pos := by decide

/-- A quiet machine. -/
def quietReadings : Readings where
  now := 0
  pid := 1
  pressure := none
  resumesPending := false
  availableMemory := none
  waitFreshForMemory := false
  waitFreshForCpu := false

/-- The directory before its first use. -/
def emptyDirectory : PoolState where
  leases := []
  waiters := []
  nonce _ := 0
  permits := []
  closing := []

/-- One attempt of the small pool. -/
def smallAttempt (cpu memoryBytes : UInt64) (s : PoolState) : PoolState :=
  (smallPool.tryAdmitState TicketSort.insertion 7 quietReadings ⟨cpu, memoryBytes⟩ 1 none none
    ⟨none, 0⟩ s).2.2

/-- Two compilations are admitted on a fresh directory and together use the
whole build, within every ceiling. -/
theorem poolReachable_withinCeilings_small :
    charges Resources.cpu
        (smallAttempt 1 90 (smallAttempt 2 10 emptyDirectory)).live = [1, 2] ∧
      WithinCeilings smallConfig (smallAttempt 1 90 (smallAttempt 2 10 emptyDirectory)).live := by
  have hpool : smallPool.Configured smallConfig := by
    refine ⟨rfl, rfl, rfl, rfl, ?_⟩
    intro id ceiling hbuild
    exact (Prod.mk.inj (Option.some.inj hbuild)).2.symm
  have hattempt : ∀ cpu memoryBytes s,
      PoolStep smallConfig TicketSort.insertion s (smallAttempt cpu memoryBytes s) :=
    fun cpu memoryBytes s => PoolStep.attempt 7 smallPool quietReadings ⟨cpu, memoryBytes⟩ 1 none
      none ⟨none, 0⟩ s.leases s.waiters hpool (List.Perm.refl _) (List.Perm.refl _)
  have hidle : emptyDirectory.Idle := ⟨by simp [emptyDirectory], rfl, rfl⟩
  exact ⟨by decide, poolReachable_withinCeilings
    (((Runs.Reachable.start hidle).next (hattempt 2 10 _)).next (hattempt 1 90 _))⟩

end MrBoxington.Scheduler
