import Mathlib.Algebra.BigOperators.Group.List.Lemmas
import Mathlib.Algebra.Order.Ring.Nat
import MrBoxington.Lib.U64

/-!
# Leases, waiters and the budgets they are charged against

The permit pool is a directory of lease and waiter records. A record charges
CPU cores and predicted memory bytes independently; records written by older
wrappers charge their scalar weight on both axes. A budget admits a request on
an axis when the axis is unused or the total stays within the ceiling.
-/

namespace MrBoxington.Scheduler

/-- Whether `weight` more units fit beside `used` under `capacity`. An unused
scope admits anything, so that oversize work can make progress. -/
def fits (used weight capacity : UInt64) : Bool :=
  used == 0 || (U64.checkedAdd used weight).any (fun total => decide (total ≤ capacity))

/-- Physical resources. A zero memory ceiling means unlimited memory. -/
structure Resources where
  cpu : UInt64
  memoryBytes : UInt64
  deriving DecidableEq, Repr

/-- No resources at all. -/
def Resources.zero : Resources := ⟨0, 0⟩

/-- Each dimension grants its own empty-scope exception: an oversize CPU request
still needs memory room, and conversely. -/
def Resources.fits (budget used request : Resources) : Bool :=
  Scheduler.fits used.cpu request.cpu budget.cpu &&
    (budget.memoryBytes == 0 ||
      Scheduler.fits used.memoryBytes request.memoryBytes budget.memoryBytes)

/-- The charge of a record: the fields of a new record, and the whole legacy
weight on both axes of an old one. -/
def recordResources (cpu memory : Option UInt64) (weight unit : UInt64) : Resources where
  cpu := cpu.getD weight
  memoryBytes := memory.getD (U64.saturatingMul weight unit)

/-- One lease record, stored beside the lock that proves its holder is alive. -/
structure Lease where
  version : UInt8
  name : Option String
  modeKey : Option String
  weight : UInt64
  cpu : Option UInt64
  memoryBytes : Option UInt64
  priority : String
  buildId : Option String
  domain : Option String
  bytesPerPermit : UInt64
  deriving DecidableEq, Repr

/-- One queued request, together with the ceilings its own pool enforces. -/
structure Waiting where
  pid : Option UInt32
  firstArrivalMs : Option UInt64
  name : Option String
  modeKey : Option String
  ticket : UInt64
  weight : UInt64
  cpu : Option UInt64
  memoryBytes : Option UInt64
  priority : String
  domain : String
  domainCapacity : UInt64
  globalCapacity : Option UInt64
  cpuCap : Option UInt64
  memCap : Option UInt64
  domainMemoryCap : Option UInt64
  domainCpuCap : Option UInt64
  bytesPerPermit : UInt64
  build : Option (String × UInt64)
  deriving DecidableEq, Repr

/-- The charge of a lease. -/
def Lease.resources (lease : Lease) : Resources :=
  recordResources lease.cpu lease.memoryBytes lease.weight lease.bytesPerPermit

/-- The charge of a waiter. -/
def Waiting.resources (waiter : Waiting) : Resources :=
  recordResources waiter.cpu waiter.memoryBytes waiter.weight waiter.bytesPerPermit

/-- The global ceilings a waiter's own pool enforces. -/
def Waiting.globalBudget (waiter : Waiting) (fallback : Resources) : Resources where
  cpu := (waiter.cpuCap.or waiter.globalCapacity).getD fallback.cpu
  memoryBytes := waiter.memCap.getD <|
    match waiter.globalCapacity with
    | none => fallback.memoryBytes
    | some cap => U64.saturatingMul cap waiter.bytesPerPermit

/-- The ceilings of a waiter's domain. -/
def Waiting.domainBudget (waiter : Waiting) : Resources where
  cpu := waiter.domainCpuCap.getD waiter.domainCapacity
  memoryBytes := waiter.domainMemoryCap.getD
    (U64.saturatingMul waiter.domainCapacity waiter.bytesPerPermit)

/-- The scalar charge an old reader computes after a permit-unit change. -/
def weightInUnits (weight originalUnit unit : UInt64) : UInt64 :=
  if unit = 0 then weight
  else max weight (U64.divCeil (U64.saturatingMul weight originalUnit) unit)

/-- The resources that a list of leases holds, clamped at the largest word. -/
def scopeUsed (leases : List Lease) : Resources :=
  leases.foldl (fun used lease =>
    { cpu := U64.saturatingAdd used.cpu lease.resources.cpu
      memoryBytes := U64.saturatingAdd used.memoryBytes lease.resources.memoryBytes })
    Resources.zero

/-- Whether a lease counts against a domain. One that names no domain counts
against all of them. -/
def Lease.inDomain (lease : Lease) (domain : String) : Bool :=
  lease.domain.all (fun id => id == domain)

/-- Whether a lease was granted to a build. -/
def Lease.inBuild (lease : Lease) (id : String) : Bool := lease.buildId == some id

/-- The resources held in one domain. -/
def domainUsed (live : List Lease) (domain : String) : Resources :=
  scopeUsed (live.filter (fun lease => lease.inDomain domain))

/-- Whether `cpu` more cores fit the ceiling of a build, when there is one. -/
def buildFits (live : List Lease) (build : Option (String × UInt64)) (cpu : UInt64) : Bool :=
  build.all fun (id, capacity) =>
    fits (scopeUsed (live.filter (fun lease => lease.inBuild id))).cpu cpu capacity

/-- An axis fits exactly when it is unused or the true total stays within the
ceiling. -/
theorem fits_iff {used weight capacity : UInt64} :
    fits used weight capacity = true ↔
      used.toNat = 0 ∨ used.toNat + weight.toNat ≤ capacity.toNat := by
  have hcap := capacity.toNat_lt
  unfold fits
  rw [Bool.or_eq_true, beq_iff_eq, ← UInt64.toNat_inj, UInt64.toNat_zero]
  apply or_congr Iff.rfl
  cases hadd : U64.checkedAdd used weight with
  | none =>
    unfold U64.checkedAdd at hadd
    split at hadd
    · exact absurd hadd (by simp)
    · simp only [Option.any_none, Bool.false_eq_true, false_iff]
      omega
  | some total =>
    rw [U64.checkedAdd_eq_some] at hadd
    simp [UInt64.le_iff_toNat_le, hadd]

private theorem Resources.fits_iff {budget used request : Resources} :
    budget.fits used request = true ↔
      (used.cpu.toNat = 0 ∨ used.cpu.toNat + request.cpu.toNat ≤ budget.cpu.toNat) ∧
      (budget.memoryBytes ≠ 0 → used.memoryBytes.toNat = 0 ∨
        used.memoryBytes.toNat + request.memoryBytes.toNat ≤ budget.memoryBytes.toNat) := by
  unfold Resources.fits
  rw [Bool.and_eq_true, Scheduler.fits_iff, Bool.or_eq_true, beq_iff_eq, Scheduler.fits_iff]
  by_cases hzero : budget.memoryBytes = 0 <;> simp [hzero]

/-- What a list of leases truly holds on one axis. -/
def held (axis : Resources → UInt64) (leases : List Lease) : ℕ :=
  (leases.map (fun lease => (axis lease.resources).toNat)).sum

/-- A charge fits beside what is held, which the pool measures clamped at the
largest word. An empty axis fits anything. -/
def AxisFits (held charge ceiling : ℕ) : Prop :=
  held = 0 ∨ min held 18446744073709551615 + charge ≤ ceiling

/-- A request fits a budget beside the leases of a scope on every bounded axis. -/
def FitsBudget (budget : Resources) (leases : List Lease) (request : Resources) : Prop :=
  AxisFits (held Resources.cpu leases) request.cpu.toNat budget.cpu.toNat ∧
    (budget.memoryBytes ≠ 0 →
      AxisFits (held Resources.memoryBytes leases) request.memoryBytes.toNat
        budget.memoryBytes.toNat)

/-- A request fits the CPU ceiling of its build, when it has one. -/
def FitsBuild (live : List Lease) (build : Option (String × UInt64)) (cpu : UInt64) : Prop :=
  ∀ id ceiling, build = some (id, ceiling) →
    AxisFits (held Resources.cpu (live.filter (fun lease => lease.inBuild id))) cpu.toNat
      ceiling.toNat

private theorem foldl_used (leases : List Lease) (start : Resources) :
    (leases.foldl (fun used lease =>
      ({ cpu := U64.saturatingAdd used.cpu lease.resources.cpu
         memoryBytes := U64.saturatingAdd used.memoryBytes lease.resources.memoryBytes } :
        Resources)) start).cpu.toNat =
      min (start.cpu.toNat + held Resources.cpu leases) 18446744073709551615 ∧
    (leases.foldl (fun used lease =>
      ({ cpu := U64.saturatingAdd used.cpu lease.resources.cpu
         memoryBytes := U64.saturatingAdd used.memoryBytes lease.resources.memoryBytes } :
        Resources)) start).memoryBytes.toNat =
      min (start.memoryBytes.toNat + held Resources.memoryBytes leases)
        18446744073709551615 := by
  induction leases generalizing start with
  | nil =>
    have hcpu := U64.toNat_le_max start.cpu
    have hmem := U64.toNat_le_max start.memoryBytes
    simp only [List.foldl_nil, held, List.map_nil, List.sum_nil]
    omega
  | cons lease leases ih =>
    obtain ⟨hcpu, hmem⟩ := ih
      { cpu := U64.saturatingAdd start.cpu lease.resources.cpu
        memoryBytes := U64.saturatingAdd start.memoryBytes lease.resources.memoryBytes }
    simp only [held, List.foldl_cons, List.map_cons, List.sum_cons, hcpu, hmem,
      U64.toNat_saturatingAdd]
    omega

/-- The CPU a scope is seen to hold is what it holds, clamped at the largest
word. -/
theorem scopeUsed_cpu (leases : List Lease) :
    (scopeUsed leases).cpu.toNat = min (held Resources.cpu leases) 18446744073709551615 := by
  have h := (foldl_used leases Resources.zero).1
  simpa [scopeUsed, Resources.zero] using h

/-- The memory a scope is seen to hold is what it holds, clamped at the largest
word. -/
theorem scopeUsed_memoryBytes (leases : List Lease) :
    (scopeUsed leases).memoryBytes.toNat =
      min (held Resources.memoryBytes leases) 18446744073709551615 := by
  have h := (foldl_used leases Resources.zero).2
  simpa [scopeUsed, Resources.zero] using h

private theorem clamped_eq_zero {n : ℕ} : min n 18446744073709551615 = 0 ↔ n = 0 := by omega

/-- The check of the scope's budget is the exact one. -/
theorem Resources.fits_scopeUsed_iff {budget request : Resources} {leases : List Lease} :
    budget.fits (scopeUsed leases) request = true ↔ FitsBudget budget leases request := by
  rw [Resources.fits_iff, scopeUsed_cpu, scopeUsed_memoryBytes, clamped_eq_zero, clamped_eq_zero]
  rfl

/-- The check of the build's share is the exact one. -/
theorem buildFits_iff {live : List Lease} {build : Option (String × UInt64)} {cpu : UInt64} :
    buildFits live build cpu = true ↔ FitsBuild live build cpu := by
  cases build with
  | none => simp [buildFits, FitsBuild]
  | some ceiling =>
    obtain ⟨id, capacity⟩ := ceiling
    simp only [buildFits, FitsBuild, Option.all_some, Scheduler.fits_iff, scopeUsed_cpu,
      clamped_eq_zero, Option.some.injEq, Prod.mk.injEq]
    constructor
    · rintro h id' capacity' ⟨rfl, rfl⟩
      exact h
    · intro h
      exact h id capacity ⟨rfl, rfl⟩

end MrBoxington.Scheduler
