import Mathlib.Data.List.Sort
import MrBoxington.Lib.CheckOnce
import MrBoxington.Scheduler.Records
import MrBoxington.Scheduler.PassQuantized

/-!
# The admission decision

A request is first checked against its own ceilings. It is then admitted in
queue order when every older waiter that could claim precedence is itself
blocked elsewhere, and otherwise only when it may safely pass all of them. The
decision trace of the source only observes these checks and is not modelled.
-/

namespace MrBoxington.Scheduler

/-- The outcome of one admission attempt. -/
inductive AdmissionDecision where
  | ordered
  | passing
  | waiting
  deriving DecidableEq, Repr

/-- A sort of waiters by ticket. An unstable sort promises a rearrangement in
ticket order and nothing about waiters that share a ticket. -/
structure TicketSort where
  run : List Waiting → List Waiting
  perm : ∀ waiters, (run waiters).Perm waiters
  sorted : ∀ waiters, (run waiters).Pairwise (fun a b => a.ticket ≤ b.ticket)

/-- Insertion sort is one such sort. -/
def TicketSort.insertion : TicketSort where
  run := List.insertionSort (fun a b => a.ticket ≤ b.ticket)
  perm waiters := List.perm_insertionSort _ waiters
  sorted waiters := by
    have htotal : Std.Total (fun a b : Waiting => a.ticket ≤ b.ticket) :=
      ⟨fun a b => UInt64.le_total a.ticket b.ticket⟩
    have htrans : IsTrans Waiting (fun a b => a.ticket ≤ b.ticket) :=
      ⟨fun _ _ _ => UInt64.le_trans⟩
    exact List.pairwise_insertionSort _ waiters

/-- A normal-priority request does not queue behind low-priority waiters. -/
def priorityException (older request : Waiting) : Bool :=
  older.priority == "low" && request.priority == "normal"

/-- Why an older waiter does not hold this request back, if it does not. -/
def olderException (live : List Lease) (older request : Waiting) : Option String :=
  if priorityException older request then some "exception:priority"
  else if !buildFits live older.build older.resources.cpu then
    if older.build.map Prod.fst != request.build.map Prod.fst then some "exception:build" else none
  else if !older.domainBudget.fits (domainUsed live older.domain) older.resources then
    if older.domain != request.domain then some "exception:domain" else none
  else none

/-- Memory charges are compared in units of 16 MiB. -/
def memoryQuantum : UInt64 := 16 * 1024 * 1024

/-- Whether a lease belongs to the scope of a build or a domain. No restriction
means the whole machine. -/
def Lease.inScope (build domain : Option String) (lease : Lease) : Bool :=
  build.all (fun id => lease.inBuild id) && domain.all (fun id => lease.inDomain id)

/-- Whether a waiter belongs to the scope of a build or a domain. -/
def Waiting.inScope (build domain : Option String) (waiter : Waiting) : Bool :=
  build.all (fun id => waiter.build.map Prod.fst == some id) &&
    domain.all (fun id => waiter.domain == id)

/-- Whether the request may pass the older waiters of one scope under one
budget. Each axis is checked alone, which is safe because the completions that
suffice on both axes are among those that suffice on either. -/
def scopeAllows (live : List Lease) (older : List Waiting) (charge budget : Resources)
    (build domain : Option String) : Bool :=
  let live := (live.filter (Lease.inScope build domain)).map Lease.resources
  let heads := (older.filter (Waiting.inScope build domain)).map Waiting.resources
  passQuantized budget.cpu (live.map Resources.cpu) (heads.map Resources.cpu) charge.cpu 1 &&
    (budget.memoryBytes == 0 ||
      passQuantized budget.memoryBytes (live.map Resources.memoryBytes)
        (heads.map Resources.memoryBytes) charge.memoryBytes memoryQuantum)

/-- The same question in the scalar weights that old writers decide by. -/
def scalarScopeAllows (live : List Lease) (older : List Waiting) (request : Waiting)
    (capacity unit : UInt64) (build domain : Option String) : Bool :=
  let weights := (live.filter (Lease.inScope build domain)).map
    (fun lease => weightInUnits lease.weight lease.bytesPerPermit unit)
  let heads := (older.filter (Waiting.inScope build domain)).map
    (fun waiter => weightInUnits waiter.weight waiter.bytesPerPermit unit)
  passQuantized capacity weights heads
    (weightInUnits request.weight request.bytesPerPermit unit) 1

section Visits

variable {κ : Type} [DecidableEq κ]

/-- A check in the waiter's domain, made only when the request shares it. -/
def visitDomain (waiter request : Waiting) (key : κ) (passed : Bool) (checked : Finset κ) :
    Option (Finset κ) :=
  if waiter.domain = request.domain then CheckOnce.visit checked key passed else some checked

/-- A check in the waiter's build under its ceiling, made only when the request
shares the build. -/
def visitBuild (waiter request : Waiting) (key : UInt64 → κ) (passed : String → UInt64 → Bool)
    (checked : Finset κ) : Option (Finset κ) :=
  match waiter.build, request.build with
  | some (id, ceiling), some (requestId, _) =>
    if id = requestId then CheckOnce.visit checked (key ceiling) (passed id ceiling)
    else some checked
  | _, _ => some checked

end Visits

/-- The checks of one older waiter against its own ceilings. Ceilings already
checked for the same scope are skipped: the first set remembers them for the
machine, the second for the request's domain (`false`) and its build (`true`). -/
def waiterAllows (allows : Resources → Option String → Option String → Bool)
    (request : Waiting) (budget : Resources)
    (seen : Finset (UInt64 × UInt64) × Finset (Bool × UInt64 × UInt64)) (waiter : Waiting) :
    Option (Finset (UInt64 × UInt64) × Finset (Bool × UInt64 × UInt64)) := do
  let global := waiter.globalBudget budget
  let checkedGlobal ← CheckOnce.visit seen.1 (global.cpu, global.memoryBytes)
    (allows global none none)
  let domain := waiter.domainBudget
  let checked ← visitDomain waiter request (false, domain.cpu, domain.memoryBytes)
    (allows domain none (some waiter.domain)) seen.2
  let checked ← visitBuild waiter request (fun ceiling => (true, ceiling, 0))
    (fun id ceiling => allows ⟨ceiling, 0⟩ (some id) none) checked
  return (checkedGlobal, checked)

/-- The checks of one older waiter that an old writer queued, in scalar weights:
of the machine (0), the request's domain (1) and its build (2). A waiter that
carries both charges needs only the vector checks. -/
def scalarWaiterAllows (allows : UInt64 → UInt64 → Option String → Option String → Bool)
    (request : Waiting) (capacity : UInt64) (checked : Finset (ℕ × UInt64 × UInt64))
    (waiter : Waiting) : Option (Finset (ℕ × UInt64 × UInt64)) :=
  if waiter.cpu.isSome && waiter.memoryBytes.isSome then some checked
  else do
    let unit := waiter.bytesPerPermit
    let global := waiter.globalCapacity.getD capacity
    let checked ← CheckOnce.visit checked (0, global, unit) (allows global unit none none)
    let checked ← visitDomain waiter request (1, waiter.domainCapacity, unit)
      (allows waiter.domainCapacity unit none (some waiter.domain)) checked
    visitBuild waiter request (fun ceiling => (2, ceiling, unit))
      (fun id ceiling => allows ceiling unit (some id) none) checked

/-- The global budget a request is held to. -/
def requestBudget (capacity : UInt64) (request : Waiting) : Resources :=
  request.globalBudget
    { cpu := capacity, memoryBytes := U64.saturatingMul capacity request.bytesPerPermit }

/-- The older waiters a request could be held back by, oldest first. -/
def olderWaiters (sort : TicketSort) (waiting : List Waiting) (request : Waiting) :
    List Waiting :=
  sort.run (waiting.filter (fun older =>
    decide (older.ticket < request.ticket) && !priorityException older request))

/-- Decide one admission attempt from the live leases and the queued waiters. -/
def admissionDecisionTraced (sort : TicketSort) (capacity : UInt64) (live : List Lease)
    (waiting : List Waiting) (request : Waiting) : AdmissionDecision :=
  let budget := requestBudget capacity request
  let charge := request.resources
  if !buildFits live request.build charge.cpu ||
      !request.domainBudget.fits (domainUsed live request.domain) charge ||
      !budget.fits (scopeUsed live) charge then .waiting
  else
    let older := olderWaiters sort waiting request
    if !older.any (fun older => (olderException live older request).isNone) then .ordered
    else
      let allows := scopeAllows live older charge
      if !allows budget none none then .waiting
      else if (older.foldlM (waiterAllows allows request budget)
          ({(budget.cpu, budget.memoryBytes)}, ∅)).isNone then .waiting
      else if (older.foldlM (scalarWaiterAllows (scalarScopeAllows live older request) request
          capacity) ∅).isNone then .waiting
      else .passing

/-- The request fits its build ceiling, its domain ceilings and its global
budget, in the code's own usage. -/
structure RequestFits (capacity : UInt64) (live : List Lease) (request : Waiting) : Prop where
  build : buildFits live request.build request.resources.cpu = true
  domain : request.domainBudget.fits (domainUsed live request.domain) request.resources = true
  global : (requestBudget capacity request).fits (scopeUsed live) request.resources = true

/-- A request waits, or fits and is admitted in order or by passing. -/
theorem admissionDecisionTraced_cases (sort : TicketSort) (capacity : UInt64) (live : List Lease)
    (waiting : List Waiting) (request : Waiting) :
    admissionDecisionTraced sort capacity live waiting request = .waiting ∨
      RequestFits capacity live request ∧
        (admissionDecisionTraced sort capacity live waiting request = .ordered ∧
            (∀ older ∈ olderWaiters sort waiting request,
              (olderException live older request).isSome = true) ∨
          admissionDecisionTraced sort capacity live waiting request = .passing ∧
            scopeAllows live (olderWaiters sort waiting request) request.resources
              (requestBudget capacity request) none none = true ∧
            ∃ seen, (olderWaiters sort waiting request).foldlM
              (waiterAllows
                (scopeAllows live (olderWaiters sort waiting request) request.resources)
                request (requestBudget capacity request))
              ({((requestBudget capacity request).cpu,
                (requestBudget capacity request).memoryBytes)}, ∅) = some seen) := by
  unfold admissionDecisionTraced
  dsimp only
  split
  · exact Or.inl rfl
  · rename_i hfits
    have hrequest : RequestFits capacity live request := by
      simp only [Bool.or_eq_true, Bool.not_eq_true', not_or, Bool.not_eq_false] at hfits
      exact ⟨hfits.1.1, hfits.1.2, hfits.2⟩
    split
    · rename_i hnone
      simp only [Bool.not_eq_true', List.any_eq_false, Option.isNone_iff_eq_none] at hnone
      exact Or.inr ⟨hrequest, Or.inl ⟨rfl, fun older hmem =>
        Option.isSome_iff_ne_none.mpr (hnone older hmem)⟩⟩
    · split
      · exact Or.inl rfl
      · rename_i hown
        split
        · exact Or.inl rfl
        · rename_i hloop
          split
          · exact Or.inl rfl
          · refine Or.inr ⟨hrequest, Or.inr ⟨rfl, by simpa using hown, ?_⟩⟩
            rw [Option.isNone_iff_eq_none] at hloop
            exact Option.ne_none_iff_exists'.mp hloop

/-- What the checks against one older waiter's own ceilings establish. -/
structure WaiterProtected (allows : Resources → Option String → Option String → Bool)
    (request : Waiting) (budget : Resources) (waiter : Waiting) : Prop where
  global : allows (waiter.globalBudget budget) none none = true
  domain : waiter.domain = request.domain →
    allows waiter.domainBudget none (some waiter.domain) = true
  build : ∀ id ceiling requestCeiling, waiter.build = some (id, ceiling) →
    request.build = some (id, requestCeiling) → allows ⟨ceiling, 0⟩ (some id) none = true

/-- What a remembered key of the second set means for this request. -/
def LocalPassed (allows : Resources → Option String → Option String → Bool)
    (request : Waiting) : Bool × UInt64 × UInt64 → Prop
  | (false, cpu, memoryBytes) => allows ⟨cpu, memoryBytes⟩ none (some request.domain) = true
  | (true, ceiling, _) => ∀ id requestCeiling, request.build = some (id, requestCeiling) →
    allows ⟨ceiling, 0⟩ (some id) none = true

/-- Both sets remember only ceilings that passed. -/
structure SeenPassed (allows : Resources → Option String → Option String → Bool)
    (request : Waiting)
    (seen : Finset (UInt64 × UInt64) × Finset (Bool × UInt64 × UInt64)) : Prop where
  global : CheckOnce.AllPassed
    (fun key : UInt64 × UInt64 => allows ⟨key.1, key.2⟩ none none = true) seen.1
  local_ : CheckOnce.AllPassed (LocalPassed allows request) seen.2

section Visits

variable {κ : Type} [DecidableEq κ] {passes : κ → Prop} {checked checked' : Finset κ}
  {waiter request : Waiting}

/-- A domain check that goes on leaves every key passed, and its own key when
the request shares the domain. -/
theorem allPassed_visitDomain {key : κ} {passed : Bool}
    (hchecked : CheckOnce.AllPassed passes checked)
    (hkey : waiter.domain = request.domain → passed = true → passes key)
    (hvisit : visitDomain waiter request key passed checked = some checked') :
    CheckOnce.AllPassed passes checked' ∧ (waiter.domain = request.domain → passes key) := by
  unfold visitDomain at hvisit
  split at hvisit
  · rename_i hsame
    obtain ⟨hpassed, hown⟩ := hchecked.visit (hkey hsame) hvisit
    exact ⟨hpassed, fun _ => hown⟩
  · rename_i hother
    rw [← Option.some.inj hvisit]
    exact ⟨hchecked, fun hsame => absurd hsame hother⟩

/-- A build check that goes on leaves every key passed, and its own key when the
request shares the build. -/
theorem allPassed_visitBuild {key : UInt64 → κ} {passed : String → UInt64 → Bool}
    (hchecked : CheckOnce.AllPassed passes checked)
    (hkey : ∀ id ceiling requestCeiling, request.build = some (id, requestCeiling) →
      passed id ceiling = true → passes (key ceiling))
    (hvisit : visitBuild waiter request key passed checked = some checked') :
    CheckOnce.AllPassed passes checked' ∧
      ∀ id ceiling requestCeiling, waiter.build = some (id, ceiling) →
        request.build = some (id, requestCeiling) → passes (key ceiling) := by
  unfold visitBuild at hvisit
  split at hvisit
  · rename_i id ceiling requestId requestCeiling hwaiter hrequest
    split at hvisit
    · rename_i hsame
      subst hsame
      obtain ⟨hpassed, hown⟩ := hchecked.visit (hkey id ceiling _ hrequest) hvisit
      refine ⟨hpassed, fun id' ceiling' _ hwaiter' _ => ?_⟩
      rw [hwaiter] at hwaiter'
      obtain ⟨-, rfl⟩ := Prod.mk.inj (Option.some.inj hwaiter')
      exact hown
    · rename_i hother
      rw [← Option.some.inj hvisit]
      refine ⟨hchecked, fun id' ceiling' _ hwaiter' hrequest' => absurd ?_ hother⟩
      rw [hwaiter] at hwaiter'
      rw [hrequest] at hrequest'
      obtain ⟨rfl, -⟩ := Prod.mk.inj (Option.some.inj hwaiter')
      exact (Prod.mk.inj (Option.some.inj hrequest')).1.symm
  · rename_i hmissing
    rw [← Option.some.inj hvisit]
    exact ⟨hchecked, fun _ _ _ hwaiter hrequest => (hmissing _ _ _ _ hwaiter hrequest).elim⟩

end Visits

private theorem waiterAllows_step {allows : Resources → Option String → Option String → Bool}
    {request waiter : Waiting} {budget : Resources}
    {seen seen' : Finset (UInt64 × UInt64) × Finset (Bool × UInt64 × UInt64)}
    (hseen : SeenPassed allows request seen)
    (hstep : waiterAllows allows request budget seen waiter = some seen') :
    SeenPassed allows request seen' ∧ WaiterProtected allows request budget waiter := by
  unfold waiterAllows at hstep
  obtain ⟨global, hglobal, hstep⟩ := Option.bind_eq_some_iff.mp hstep
  obtain ⟨checked, hdomain, hstep⟩ := Option.bind_eq_some_iff.mp hstep
  obtain ⟨checked', hbuild, hstep⟩ := Option.bind_eq_some_iff.mp hstep
  rw [← Option.some.inj hstep]
  obtain ⟨hglobalSeen, hglobalPassed⟩ := hseen.global.visit (fun h => h) hglobal
  obtain ⟨hchecked, hdomainPassed⟩ := allPassed_visitDomain hseen.local_ (by
    intro hsame hpassed
    rw [hsame] at hpassed
    exact hpassed) hdomain
  obtain ⟨hchecked', hbuildPassed⟩ := allPassed_visitBuild hchecked (by
    intro id ceiling requestCeiling hrequest hpassed id' requestCeiling' hrequest'
    rw [hrequest] at hrequest'
    obtain ⟨rfl, -⟩ := Prod.mk.inj (Option.some.inj hrequest')
    exact hpassed) hbuild
  refine ⟨⟨hglobalSeen, hchecked'⟩, ⟨hglobalPassed, ?_, ?_⟩⟩
  · intro hsame
    rw [hsame]
    exact hdomainPassed hsame
  · intro id ceiling requestCeiling hwaiter hrequest
    exact hbuildPassed id ceiling requestCeiling hwaiter hrequest id requestCeiling hrequest

private theorem waiterAllows_run {allows : Resources → Option String → Option String → Bool}
    {request : Waiting} {budget : Resources} {older : List Waiting}
    {seen seen' : Finset (UInt64 × UInt64) × Finset (Bool × UInt64 × UInt64)}
    (hseen : SeenPassed allows request seen)
    (hrun : older.foldlM (waiterAllows allows request budget) seen = some seen') :
    ∀ waiter ∈ older, WaiterProtected allows request budget waiter := by
  induction older generalizing seen with
  | nil => simp
  | cons first older ih =>
    rw [List.foldlM_cons] at hrun
    obtain ⟨next, hstep, hrest⟩ := Option.bind_eq_some_iff.mp hrun
    obtain ⟨hnext, hfirst⟩ := waiterAllows_step hseen hstep
    intro waiter hmem
    rcases List.mem_cons.mp hmem with rfl | hmem
    · exact hfirst
    · exact ih hnext hrest waiter hmem

/-- A request that passes leaves every older waiter protected. -/
theorem waiterProtected_of_passing {sort : TicketSort} {capacity : UInt64} {live : List Lease}
    {waiting : List Waiting} {request : Waiting}
    (hpassing : admissionDecisionTraced sort capacity live waiting request = .passing) :
    scopeAllows live (olderWaiters sort waiting request) request.resources
        (requestBudget capacity request) none none = true ∧
      ∀ waiter ∈ olderWaiters sort waiting request,
        WaiterProtected
          (scopeAllows live (olderWaiters sort waiting request) request.resources)
          request (requestBudget capacity request) waiter := by
  rcases admissionDecisionTraced_cases sort capacity live waiting request with
    hwaiting | ⟨-, ⟨hordered, -⟩ | ⟨-, hown, seen, hseen⟩⟩
  · exact absurd (hpassing.symm.trans hwaiting) (by decide)
  · exact absurd (hpassing.symm.trans hordered) (by decide)
  · refine ⟨hown, waiterAllows_run ⟨?_, CheckOnce.AllPassed.empty⟩ hseen⟩
    apply CheckOnce.AllPassed.singleton
    exact hown

end MrBoxington.Scheduler
