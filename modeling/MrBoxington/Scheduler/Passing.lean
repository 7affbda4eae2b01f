import MrBoxington.Scheduler.Admission

/-!
# What an admission decision guarantees

An admitted request fits its own ceilings. One admitted in queue order overtakes
only waiters that their own build or domain blocks. One that passes delays no
older waiter in any scope the two share: whichever leases finish and whichever
earlier waiters start first, a waiter that then fits also fits beside the
request. Each axis is compared alone, although waiters start on both.
-/

namespace MrBoxington.Scheduler

/-- What the leases still running and the waiters admitted meanwhile hold on one
axis. -/
def heldLater (axis : Resources → UInt64) (running : List Lease) (admitted : List Waiting) : ℕ :=
  total (running.map (fun lease => axis lease.resources)) +
    total (admitted.map (fun waiter => axis waiter.resources))

/-- On one axis, a waiter that fits beside `running` and `admitted` also fits
with the request beside them. The waiter may fit because nothing is held. -/
def KeepsFit (axis : Resources → UInt64) (ceiling : UInt64) (running : List Lease)
    (admitted : List Waiting) (waiter request : Waiting) : Prop :=
  heldLater axis running admitted = 0 ∨
      heldLater axis running admitted + (axis waiter.resources).toNat ≤ ceiling.toNat →
    heldLater axis running admitted + (axis waiter.resources).toNat +
      (axis request.resources).toNat ≤ ceiling.toNat

/-- The request delays the waiter under `budget` at no point: not for any part of
the scope's leases still running nor any part of its earlier waiters admitted. -/
def NoDelay (budget : Resources) (live : List Lease) (earlier : List Waiting)
    (waiter request : Waiting) : Prop :=
  ∀ running admitted, running.Sublist live → admitted.Sublist earlier →
    KeepsFit Resources.cpu budget.cpu running admitted waiter request ∧
      (budget.memoryBytes ≠ 0 →
        KeepsFit Resources.memoryBytes budget.memoryBytes running admitted waiter request)

/-- The leases of a scope. -/
def leasesIn (build domain : Option String) (live : List Lease) : List Lease :=
  live.filter (Lease.inScope build domain)

/-- The waiters of a scope that the request could be held back by and that are
older than `waiter`. -/
def earlierIn (build domain : Option String) (waiting : List Waiting) (request waiter : Waiting) :
    List Waiting :=
  waiting.filter (fun other => decide (other.ticket < waiter.ticket) &&
    !priorityException other request && other.inScope build domain)

private theorem mem_olderWaiters {sort : TicketSort} {waiting : List Waiting}
    {request waiter : Waiting} :
    waiter ∈ olderWaiters sort waiting request ↔
      waiter ∈ waiting ∧ waiter.ticket < request.ticket ∧
        priorityException waiter request = false := by
  rw [olderWaiters, (sort.perm _).mem_iff, List.mem_filter]
  simp

/-- In a list sorted by ticket, the members older than one of its members all
stand before some position that holds it. -/
theorem exists_position {waiters : List Waiting} {waiter : Waiting}
    (hsorted : waiters.Pairwise (fun a b => a.ticket ≤ b.ticket)) (hmem : waiter ∈ waiters) :
    ∃ k, waiters[k]? = some waiter ∧
      (waiters.filter (fun other => decide (other.ticket < waiter.ticket))).Sublist
        (waiters.take k) := by
  obtain ⟨before, after, rfl⟩ := List.append_of_mem hmem
  refine ⟨before.length, by simp, ?_⟩
  have hafter : ∀ other ∈ after, ¬other.ticket < waiter.ticket := by
    intro other hother
    have hrest := (List.pairwise_append.mp hsorted).2.1
    exact UInt64.not_lt.mpr ((List.pairwise_cons.mp hrest).1 other hother)
  have hnone : after.filter (fun other => decide (other.ticket < waiter.ticket)) = [] := by
    simpa using hafter
  simp [List.filter_append, hnone]

/-- The earlier waiters of a scope are among those before some position of the
waiter in the scope's part of the sorted queue. -/
theorem exists_position_in_scope {sort : TicketSort} {waiting : List Waiting}
    {request waiter : Waiting} {build domain : Option String}
    (hmem : waiter ∈ olderWaiters sort waiting request)
    (hscope : waiter.inScope build domain = true) :
    ∃ k, ((olderWaiters sort waiting request).filter (Waiting.inScope build domain))[k]? =
        some waiter ∧
      (earlierIn build domain waiting request waiter).Subperm
        (((olderWaiters sort waiting request).filter (Waiting.inScope build domain)).take k) := by
  have hsorted := (sort.sorted (waiting.filter (fun older =>
    decide (older.ticket < request.ticket) && !priorityException older request))).filter
      (Waiting.inScope build domain)
  obtain ⟨k, hk, hsub⟩ := exists_position hsorted (List.mem_filter.mpr ⟨hmem, hscope⟩)
  refine ⟨k, hk, ?_⟩
  have hyounger := (mem_olderWaiters.mp hmem).2.1
  have hperm : (earlierIn build domain waiting request waiter).Perm
      (((olderWaiters sort waiting request).filter (Waiting.inScope build domain)).filter
        (fun other => decide (other.ticket < waiter.ticket))) := by
    have hsame : earlierIn build domain waiting request waiter =
        ((waiting.filter (fun older => decide (older.ticket < request.ticket) &&
          !priorityException older request)).filter (Waiting.inScope build domain)).filter
            (fun other => decide (other.ticket < waiter.ticket)) := by
      rw [List.filter_filter, List.filter_filter, earlierIn]
      apply List.filter_congr
      intro other _
      by_cases holder : other.ticket < waiter.ticket
      · have := UInt64.lt_trans holder hyounger
        simp [holder, this, Bool.and_comm]
      · simp [holder]
    rw [hsame]
    exact (((sort.perm _).filter _).filter _).symm
  exact hperm.subperm.trans hsub.subperm

private theorem keepsFit_of_passQuantized {axis : Resources → UInt64} {ceiling unit : UInt64}
    (hunit : 0 < unit.toNat) {live running : List Lease} {heads admitted : List Waiting}
    {waiter request : Waiting} {k : ℕ}
    (hpass : passQuantized ceiling ((live.map Lease.resources).map axis)
      ((heads.map Waiting.resources).map axis) (axis request.resources) unit = true)
    (hk : heads[k]? = some waiter) (hrunning : running.Sublist live)
    (hadmitted : admitted.Subperm (heads.take k)) :
    KeepsFit axis ceiling running admitted waiter request := by
  have hk' : ((heads.map Waiting.resources).map axis)[k]? = some (axis waiter.resources) := by
    simp [hk]
  have hlive : (running.map (fun lease => axis lease.resources)).Subperm
      ((live.map Lease.resources).map axis) := by
    rw [List.map_map]
    exact (hrunning.map _).subperm
  have hearlier : (admitted.map (fun waiter => axis waiter.resources)).Subperm
      (((heads.map Waiting.resources).map axis).take k) := by
    rw [List.map_map, ← List.map_take]
    obtain ⟨chosen, hperm, hsub⟩ := hadmitted
    exact ⟨chosen.map _, hperm.map _, hsub.map _⟩
  have hsound := passQuantized_sound hunit hpass hk' hlive hearlier
  have halone := passQuantized_alone hunit hpass hk'
  intro hfit
  apply hsound
  rcases hfit with hempty | hfit
  · unfold heldLater at hempty
    omega
  · exact hfit

private theorem noDelay_of_scopeAllows {sort : TicketSort} {live : List Lease}
    {waiting : List Waiting}
    {request waiter : Waiting} {budget : Resources} {build domain : Option String}
    (hallows : scopeAllows live (olderWaiters sort waiting request) request.resources budget
      build domain = true)
    (hmem : waiter ∈ olderWaiters sort waiting request)
    (hscope : waiter.inScope build domain = true) :
    NoDelay budget (leasesIn build domain live) (earlierIn build domain waiting request waiter)
      waiter request := by
  obtain ⟨k, hk, hearlier⟩ := exists_position_in_scope hmem hscope
  unfold scopeAllows at hallows
  simp only [Bool.and_eq_true, Bool.or_eq_true, beq_iff_eq] at hallows
  obtain ⟨hcpu, hmemory⟩ := hallows
  intro running admitted hrunning hadmitted
  refine ⟨?_, fun hbounded => ?_⟩
  · exact keepsFit_of_passQuantized (by decide) hcpu hk hrunning
      (hadmitted.subperm.trans hearlier)
  · exact keepsFit_of_passQuantized (by decide) (hmemory.resolve_left hbounded) hk hrunning
      (hadmitted.subperm.trans hearlier)

/-- An exception to queue order other than priority names a ceiling that blocks
the older waiter and that the request does not share. -/
theorem blocked_of_olderException {live : List Lease} {older request : Waiting}
    (hpriority : priorityException older request = false)
    (hsome : (olderException live older request).isSome = true) :
    (¬FitsBuild live older.build older.resources.cpu ∧
        older.build.map Prod.fst ≠ request.build.map Prod.fst) ∨
      (¬FitsBudget older.domainBudget
          (live.filter (fun lease => lease.inDomain older.domain)) older.resources ∧
        older.domain ≠ request.domain) := by
  rw [← buildFits_iff, ← Resources.fits_scopeUsed_iff]
  unfold olderException at hsome
  rw [hpriority] at hsome
  simp only [Bool.false_eq_true, if_false] at hsome
  split at hsome
  · rename_i hbuild
    split at hsome
    · rename_i hids
      exact Or.inl ⟨by simpa using hbuild, by simpa using hids⟩
    · exact absurd hsome (by simp)
  · split at hsome
    · rename_i hdomain
      split at hsome
      · rename_i hids
        exact Or.inr ⟨by simpa [domainUsed] using hdomain, by simpa using hids⟩
      · exact absurd hsome (by simp)
    · exact absurd hsome (by simp)

/-- What each decision guarantees, for any capacity, leases, queue and request.
Admission respects every ceiling of the request, queue order is left only for
waiters blocked elsewhere, and passing delays nobody in a shared scope. -/
theorem admissionDecisionTraced_sound (sort : TicketSort) (capacity : UInt64)
    (live : List Lease) (waiting : List Waiting) (request : Waiting) :
    (admissionDecisionTraced sort capacity live waiting request = .ordered ∨
        admissionDecisionTraced sort capacity live waiting request = .passing →
      FitsBuild live request.build request.resources.cpu ∧
      FitsBudget request.domainBudget
        (live.filter (fun lease => lease.inDomain request.domain)) request.resources ∧
      FitsBudget (requestBudget capacity request) live request.resources) ∧
    (admissionDecisionTraced sort capacity live waiting request = .ordered →
      ∀ waiter ∈ waiting, waiter.ticket < request.ticket →
        priorityException waiter request = false →
        (¬FitsBuild live waiter.build waiter.resources.cpu ∧
            waiter.build.map Prod.fst ≠ request.build.map Prod.fst) ∨
          (¬FitsBudget waiter.domainBudget
              (live.filter (fun lease => lease.inDomain waiter.domain)) waiter.resources ∧
            waiter.domain ≠ request.domain)) ∧
    (admissionDecisionTraced sort capacity live waiting request = .passing →
      ∀ waiter ∈ waiting, waiter.ticket < request.ticket →
        priorityException waiter request = false →
        NoDelay (requestBudget capacity request) (leasesIn none none live)
            (earlierIn none none waiting request waiter) waiter request ∧
          NoDelay (waiter.globalBudget (requestBudget capacity request))
            (leasesIn none none live) (earlierIn none none waiting request waiter) waiter
            request ∧
          (waiter.domain = request.domain →
            NoDelay waiter.domainBudget (leasesIn none (some waiter.domain) live)
              (earlierIn none (some waiter.domain) waiting request waiter) waiter request) ∧
          (∀ id ceiling requestCeiling, waiter.build = some (id, ceiling) →
            request.build = some (id, requestCeiling) →
            NoDelay ⟨ceiling, 0⟩ (leasesIn (some id) none live)
              (earlierIn (some id) none waiting request waiter) waiter request)) := by
  refine ⟨?_, ?_, ?_⟩
  · intro hadmitted
    rcases admissionDecisionTraced_cases sort capacity live waiting request with
      hwaiting | ⟨hfits, -⟩
    · rw [hwaiting] at hadmitted
      exact absurd hadmitted (by decide)
    · exact ⟨buildFits_iff.mp hfits.build, Resources.fits_scopeUsed_iff.mp hfits.domain,
        Resources.fits_scopeUsed_iff.mp hfits.global⟩
  · intro hordered waiter hmem hticket hpriority
    rcases admissionDecisionTraced_cases sort capacity live waiting request with
      hwaiting | ⟨-, ⟨-, hexceptions⟩ | ⟨hpassing, -⟩⟩
    · exact absurd (hordered.symm.trans hwaiting) (by decide)
    · exact blocked_of_olderException hpriority
        (hexceptions waiter (mem_olderWaiters.mpr ⟨hmem, hticket, hpriority⟩))
    · exact absurd (hordered.symm.trans hpassing) (by decide)
  · intro hpassing waiter hmem hticket hpriority
    obtain ⟨hown, hprotected⟩ := waiterProtected_of_passing hpassing
    have holder : waiter ∈ olderWaiters sort waiting request :=
      mem_olderWaiters.mpr ⟨hmem, hticket, hpriority⟩
    have hwaiter := hprotected waiter holder
    refine ⟨noDelay_of_scopeAllows hown holder rfl,
      noDelay_of_scopeAllows hwaiter.global holder rfl, ?_, ?_⟩
    · intro hdomain
      exact noDelay_of_scopeAllows (hwaiter.domain hdomain) holder (by simp [Waiting.inScope])
    · intro id ceiling requestCeiling hbuild hrequest
      exact noDelay_of_scopeAllows (hwaiter.build id ceiling requestCeiling hbuild hrequest)
        holder (by simp [Waiting.inScope, hbuild])

end MrBoxington.Scheduler
