import MrBoxington.Lib.Fallible
import MrBoxington.Scheduler.PoolRuns

/-!
# Tickets of queued requests

Each call that waits for a permit carries its queue entry from one attempt to the next. A
request that has to wait gets the ticket after the largest one in the directory, keeps it
when its record is written anew, and loses it when it leaves the queue: when it is admitted
or held back by a gate, when it gives up or fails, or when its process dies. Leaving after a
failure happens without the registrar, in several steps.
-/

namespace MrBoxington.Scheduler

/-- One call that waits for a permit. -/
structure Waiter where
  process : ℕ
  call : ℕ
  deriving DecidableEq

/-- The directory with the calls that wait. -/
structure QueueState where
  dir : PoolState
  waiting : Waiter → Option AdmissionState
  leaving : List FileName
  enqueued : Waiter → ℕ
  now : ℕ

namespace QueueState

/-- The queue entry of a call that is queued. -/
def entry (s : QueueState) (w : Waiter) : Option QueueEntry :=
  (s.waiting w).bind AdmissionState.queued

/-- What a call carries changes. -/
def setWaiting (s : QueueState) (w : Waiter) (state : Option AdmissionState) : QueueState :=
  { s with waiting := Function.update s.waiting w state }

/-- The directory changes. -/
def setDir (s : QueueState) (dir : PoolState) : QueueState := { s with dir := dir }

@[simp]
private theorem setDir_entry (s : QueueState) (dir : PoolState) (w : Waiter) :
    (s.setDir dir).entry w = s.entry w := rfl

@[simp]
theorem setWaiting_entry (s : QueueState) (w q : Waiter) (state : Option AdmissionState) :
    (s.setWaiting w state).entry q =
      if q = w then state.bind AdmissionState.queued else s.entry q := by
  by_cases hq : q = w <;> simp [entry, setWaiting, hq]

/-- A call has made an attempt. -/
def attempted (s : QueueState) (w : Waiter) (state state' : AdmissionState) (dir : PoolState) :
    QueueState :=
  { s with
    dir := dir
    waiting := Function.update s.waiting w (some state')
    enqueued := if state.queued.isNone && state'.queued.isSome then
      Function.update s.enqueued w s.now else s.enqueued
    now := s.now + 1 }

@[simp]
theorem attempted_entry (s : QueueState) (w q : Waiter) (state state' : AdmissionState)
    (dir : PoolState) :
    (s.attempted w state state' dir).entry q = if q = w then state'.queued else s.entry q := by
  by_cases hq : q = w <;> simp [entry, attempted, hq]

/-- A call begins to drop its queue entry. The record is emptied first, if that works. -/
def release (s : QueueState) (w : Waiter) (state : AdmissionState) (entry : QueueEntry)
    (emptied : Bool) : QueueState :=
  { s with
    dir := if emptied then s.dir.releaseWaiter entry.file else s.dir
    waiting := Function.update s.waiting w (some { state with queued := none })
    leaving := entry.file :: s.leaving }

@[simp]
theorem release_entry (s : QueueState) (w q : Waiter) (state : AdmissionState)
    (dropped : QueueEntry) (emptied : Bool) :
    (s.release w state dropped emptied).entry q = if q = w then none else s.entry q := by
  by_cases hq : q = w <;> simp [entry, release, hq]

/-- A process dies. -/
def die (s : QueueState) (process : ℕ) : QueueState :=
  { s with
    dir := s.dir.die process
    waiting := fun w => if w.process = process then none else s.waiting w
    leaving := s.leaving.filter fun name => !decide (name.process = process) }

@[simp]
theorem die_entry (s : QueueState) (process : ℕ) (w : Waiter) :
    (s.die process).entry w = if w.process = process then none else s.entry w := by
  by_cases hw : w.process = process <;> simp [entry, die, hw]

end QueueState

/-- One step of the calls that share the directory. -/
inductive QueueStep (sort : TicketSort) : QueueState → QueueState → Prop
  | arrive {s : QueueState} (w : Waiter) (firstArrivalMs : UInt64) (hnew : s.waiting w = none) :
      QueueStep sort s (s.setWaiting w (some ⟨none, firstArrivalMs⟩))
  /-- An attempt, with any charges and readings, listing the directories in any order. -/
  | attempt {s : QueueState} (w : Waiter) (pool : Pool) (readings : Readings)
      (resources : Resources) (weight : UInt64) (predicted : Option UInt64)
      (demand : Option Demand) (state state' : AdmissionState) (outcome : Outcome)
      (leases : List (RecordFile Lease)) (waiters : List (RecordFile Waiting))
      (dir : PoolState) (hstate : s.waiting w = some state)
      (hleases : leases.Perm s.dir.leases) (hwaiters : waiters.Perm s.dir.waiters)
      (hattempt : pool.tryAdmitInner sort w.process readings resources weight predicted demand
        state { s.dir with leases := leases, waiters := waiters } = (outcome, state', dir)) :
      QueueStep sort s (s.attempted w state state' dir)
  /-- An attempt cut short by a failed file operation or by the death of its process. It may
  have reclaimed dead files and left unlocked ones. -/
  | cutShort {s : QueueState} (leases : List (RecordFile Lease))
      (waiters : List (RecordFile Waiting)) (nonce : ℕ → ℕ)
      (hleases : (leases.filter RecordFile.locked).Perm (s.dir.leases.filter RecordFile.locked))
      (hwaiters : (waiters.filter RecordFile.locked).Perm
        (s.dir.waiters.filter RecordFile.locked))
      (hnonce : ∀ process, s.dir.nonce process ≤ nonce process) :
      QueueStep sort s
        (s.setDir { s.dir with leases := leases, waiters := waiters, nonce := nonce })
  /-- A call leaves the queue after a failure, or because it gives up, -/
  | release {s : QueueState} (w : Waiter) (state : AdmissionState) (entry : QueueEntry)
      (emptied : Bool) (hstate : s.waiting w = some state) (hqueued : state.queued = some entry) :
      QueueStep sort s (s.release w state entry emptied)
  | unlock {s : QueueState} (name : FileName) (hleaving : name ∈ s.leaving) :
      QueueStep sort s (s.setDir (s.dir.unlockWaiter name))
  | remove {s : QueueState} (name : FileName) (hleaving : name ∈ s.leaving) :
      QueueStep sort s (s.setDir (s.dir.removeWaiter name))
  | finish {s : QueueState} (w : Waiter) (state : AdmissionState)
      (hstate : s.waiting w = some state) (hqueued : state.queued = none) :
      QueueStep sort s (s.setWaiting w none)
  | dropPermit {s : QueueState} (name : FileName)
      (hheld : ∃ permit ∈ s.dir.permits, permit.file = name) :
      QueueStep sort s (s.setDir (s.dir.dropPermit name))
  | removeLease {s : QueueState} (name : FileName) (hclosing : name ∈ s.dir.closing) :
      QueueStep sort s (s.setDir (s.dir.removeLease name))
  | die {s : QueueState} (process : ℕ) : QueueStep sort s (s.die process)

/-- A directory that nobody uses: whatever waiter files are left are unlocked. -/
structure QueueState.Idle (s : QueueState) : Prop where
  dir : s.dir.Idle
  waiters : ∀ file ∈ s.dir.waiters, file.locked = false
  waiting : ∀ w, s.waiting w = none
  leaving : s.leaving = []

/-- The waiter file of a queue entry. -/
def QueueEntry.recordFile (entry : QueueEntry) : RecordFile Waiting :=
  ⟨entry.file, true, .record entry.record⟩

/-- The files of live holders, apart from that of a queue entry, are still there. -/
def PoolState.KeepsOthers (dir dir' : PoolState) (queued : Option QueueEntry) : Prop :=
  (∀ file ∈ dir.waiters, file.locked = true → (∀ entry, queued = some entry →
      file.name ≠ entry.file) → file ∈ dir'.waiters) ∧
    ∀ process, dir.nonce process ≤ dir'.nonce process

/-- A record is written for a request that has to wait. -/
structure Pool.Records (owner : ℕ) (state state' : AdmissionState) (dir dir' : PoolState)
    (entry : QueueEntry) : Prop where
  queued : state'.queued = some entry
  ticket : entry.record.ticket = entry.ticket
  process : entry.file.process = owner
  counted : dir.nonce owner ≤ entry.file.nonce ∧ entry.file.nonce < dir'.nonce owner
  recorded : entry.recordFile ∈ dir'.waiters
  next : (∃ old, state.queued = some old ∧ entry.ticket = old.ticket) ∨
    state.queued = none ∧ ∀ file ∈ dir.waiters, file.locked = true →
      ∀ record, file.contents = .record record → record.ticket < entry.ticket

private theorem mem_withoutEntry {waiters : List (RecordFile Waiting)} {queued : Option QueueEntry}
    {file : RecordFile Waiting} (hmem : file ∈ waiters)
    (hother : ∀ entry, queued = some entry → file.name ≠ entry.file) :
    file ∈ withoutEntry waiters queued := by
  refine List.mem_filter.mpr ⟨hmem, ?_⟩
  cases queued with
  | none => rfl
  | some entry => simpa using hother entry rfl

private theorem le_max_word (a b : UInt64) : a ≤ max a b ∧ b ≤ max a b := by
  change a ≤ (if a ≤ b then b else a) ∧ b ≤ (if a ≤ b then b else a)
  split
  · exact ⟨‹_›, UInt64.le_refl b⟩
  · rename_i hle
    rw [UInt64.not_le] at hle
    exact ⟨UInt64.le_refl a, UInt64.le_of_lt hle⟩

private theorem le_foldl_max {tickets : List UInt64} {ticket : UInt64} (start : UInt64)
    (hmem : ticket ∈ tickets ∨ ticket ≤ start) : ticket ≤ tickets.foldl max start := by
  induction tickets generalizing start with
  | nil => simpa using hmem
  | cons first tickets ih =>
    refine ih _ ?_
    rcases hmem with hmem | hle
    · rcases List.mem_cons.mp hmem with rfl | hmem
      · exact .inr (le_max_word _ _).2
      · exact .inl hmem
    · exact .inr (UInt64.le_trans hle (le_max_word _ _).1)

private theorem mem_of_scanWaiters {files live : List (RecordFile Waiting)} {waiting : List Waiting}
    (hscan : scanWaiters files = .ok (live, waiting)) :
    live = files.filter RecordFile.locked ∧ ∀ file ∈ files, file.locked = true →
      ∀ record, file.contents = .record record → record ∈ waiting := by
  obtain ⟨records, hrecords, hresult⟩ := Fallible.bind_ok hscan
  obtain ⟨rfl, rfl⟩ := Prod.mk.inj (Except.ok.inj hresult)
  refine ⟨rfl, fun file hmem hlocked record hcontents => ?_⟩
  obtain ⟨result, hresult, hok⟩ :=
    Fallible.ok_of_mapM hrecords (List.mem_filter.mpr ⟨hmem, hlocked⟩)
  rw [hcontents] at hok
  obtain rfl := Except.ok.inj hok
  exact List.mem_filterMap.mpr ⟨some record, hresult, rfl⟩

namespace Pool

private theorem records_of_lockRecord {process nonce : ℕ} {record : Waiting}
    (state : AdmissionState) {dir : PoolState} {file : RecordFile Waiting}
    (hlock : lockRecord dir.waiters process record leaseNameAttempts (dir.nonce process) =
      (some file, nonce))
    (hnext : (∃ old, state.queued = some old ∧ record.ticket = old.ticket) ∨
      state.queued = none ∧ ∀ file ∈ dir.waiters, file.locked = true →
        ∀ other, file.contents = .record other → other.ticket < record.ticket) :
    dir.KeepsOthers { dir with
        waiters := withoutEntry dir.waiters state.queued ++ [file]
        nonce := Function.update dir.nonce process nonce } state.queued ∧
      Records process state { state with queued := some ⟨record.ticket, file.name, record⟩ } dir
        { dir with
          waiters := withoutEntry dir.waiters state.queued ++ [file]
          nonce := Function.update dir.nonce process nonce }
        ⟨record.ticket, file.name, record⟩ := by
  obtain ⟨n, hle, hlt, rfl⟩ := lockRecord_some hlock
  refine ⟨⟨fun other hmem _ hother => List.mem_append_left _ (mem_withoutEntry hmem hother),
    le_update (hle.trans hlt.le)⟩, rfl, rfl, rfl, ⟨hle, by simpa using hlt⟩,
    by simp [QueueEntry.recordFile], hnext⟩

private theorem enqueue_queue {process : ℕ} {waiting : List Waiting} {request : Waiting}
    {state state' : AdmissionState} {dir dir' : PoolState} {outcome : Outcome}
    (hticket : ∀ entry, state.queued = some entry → request.ticket = entry.ticket)
    (hwaiting : ∀ file ∈ dir.waiters, file.locked = true →
      ∀ record, file.contents = .record record → record ∈ waiting)
    (henqueue : enqueue process waiting request state dir = (outcome, state', dir')) :
    (state' = state ∧ dir.KeepsOthers dir' none) ∨
      dir.KeepsOthers dir' state.queued ∧
        ∃ entry, Records process state state' dir dir' entry := by
  have hfailed : ∀ record nonce, lockRecord dir.waiters process record leaseNameAttempts
      (dir.nonce process) = (none, nonce) →
      dir.KeepsOthers { dir with nonce := Function.update dir.nonce process nonce } none := by
    intro record nonce hlock
    have hle := lockRecord_next_le dir.waiters process record leaseNameAttempts
      (dir.nonce process)
    rw [hlock] at hle
    exact ⟨fun file hmem _ _ => hmem, le_update hle⟩
  unfold enqueue at henqueue
  dsimp only at henqueue
  split at henqueue
  · rename_i entry hqueued
    split at henqueue
    · obtain ⟨-, rfl, rfl⟩ := Prod.mk.inj henqueue |>.imp id Prod.mk.inj
      exact .inl ⟨rfl, fun file hmem _ _ => hmem, fun _ => Nat.le_refl _⟩
    · split at henqueue
      · rename_i nonce hlock
        obtain ⟨-, rfl, rfl⟩ := Prod.mk.inj henqueue |>.imp id Prod.mk.inj
        exact .inl ⟨rfl, hfailed request nonce hlock⟩
      · rename_i file nonce hlock
        obtain ⟨-, rfl, rfl⟩ := Prod.mk.inj henqueue |>.imp id Prod.mk.inj
        obtain ⟨hkeeps, hrecords⟩ := records_of_lockRecord state hlock
          (.inl ⟨entry, hqueued, hticket entry hqueued⟩)
        exact .inr ⟨hkeeps, _, hrecords⟩
  · rename_i hqueued
    split at henqueue
    · obtain ⟨-, rfl, rfl⟩ := Prod.mk.inj henqueue |>.imp id Prod.mk.inj
      exact .inl ⟨rfl, fun file hmem _ _ => hmem, fun _ => Nat.le_refl _⟩
    · rename_i ticket hadd
      have hlarger : ∀ file ∈ dir.waiters, file.locked = true →
          ∀ other, file.contents = .record other → other.ticket < ticket := by
        intro file hmem hlocked other hcontents
        have hmax := le_foldl_max 0 (.inl (List.mem_map_of_mem (f := Waiting.ticket)
          (hwaiting file hmem hlocked other hcontents)))
        rw [U64.checkedAdd_eq_some] at hadd
        rw [UInt64.le_iff_toNat_le] at hmax
        rw [UInt64.lt_iff_toNat_lt]
        have hone : (1 : UInt64).toNat = 1 := rfl
        omega
      split at henqueue
      · rename_i nonce hlock
        obtain ⟨-, rfl, rfl⟩ := Prod.mk.inj henqueue |>.imp id Prod.mk.inj
        exact .inl ⟨rfl, hfailed _ nonce hlock⟩
      · rename_i file nonce hlock
        obtain ⟨-, rfl, rfl⟩ := Prod.mk.inj henqueue |>.imp id Prod.mk.inj
        obtain ⟨hkeeps, hrecords⟩ := records_of_lockRecord state hlock
          (.inr ⟨hqueued, hlarger⟩)
        exact .inr ⟨hkeeps, _, hrecords⟩

private theorem grant_queue {pool : Pool} {process : ℕ} {resources : Resources} {weight : UInt64}
    {demand : Option Demand} {state state' : AdmissionState} {dir dir' : PoolState}
    {outcome : Outcome}
    (hgrant : pool.grant process resources weight demand state dir = (outcome, state', dir')) :
    (state' = state ∧ dir.KeepsOthers dir' none) ∨
      dir.KeepsOthers dir' state.queued ∧ state'.queued = none := by
  have hle := lockRecord_next_le dir.leases process (pool.leaseRecord resources weight demand)
    leaseNameAttempts (dir.nonce process)
  unfold grant at hgrant
  dsimp only at hgrant
  split at hgrant
  all_goals
    rename_i hlock
    rw [hlock] at hle
    obtain ⟨-, rfl, rfl⟩ := Prod.mk.inj hgrant |>.imp id Prod.mk.inj
  · exact .inl ⟨rfl, fun file hmem _ _ => hmem, le_update hle⟩
  · exact .inr ⟨⟨fun file hmem _ hother => mem_withoutEntry hmem hother, le_update hle⟩, rfl⟩

/-- What an attempt does to the queue: nothing, or it leaves the queue, or it writes a
record. -/
theorem tryAdmitInner_queue {pool : Pool} {sort : TicketSort} {process : ℕ} {readings : Readings}
    {resources : Resources} {weight : UInt64} {predicted : Option UInt64}
    {demand : Option Demand} {state state' : AdmissionState} {dir dir' : PoolState}
    {outcome : Outcome}
    (hattempt : pool.tryAdmitInner sort process readings resources weight predicted demand state
      dir = (outcome, state', dir')) :
    (state' = state ∧ dir.KeepsOthers dir' none) ∨
      dir.KeepsOthers dir' state.queued ∧
        (state'.queued = none ∨ ∃ entry, Records process state state' dir dir' entry) := by
  unfold tryAdmitInner at hattempt
  dsimp only at hattempt
  split at hattempt
  · obtain ⟨-, rfl, rfl⟩ := Prod.mk.inj hattempt |>.imp id Prod.mk.inj
    exact .inr ⟨⟨fun file hmem _ hother => mem_withoutEntry hmem hother,
      fun _ => Nat.le_refl _⟩, .inl rfl⟩
  · split at hattempt
    · obtain ⟨-, rfl, rfl⟩ := Prod.mk.inj hattempt |>.imp id Prod.mk.inj
      exact .inl ⟨rfl, fun file hmem _ _ => hmem, fun _ => Nat.le_refl _⟩
    · rename_i waiters waiting hscan
      obtain ⟨rfl, hwaiting⟩ := mem_of_scanWaiters hscan
      -- The scan has kept the files of live holders.
      have hkept : ∀ {queued : Option QueueEntry} {dir' : PoolState},
          PoolState.KeepsOthers { dir with
            leases := (scanLeases dir.leases).1
            waiters := dir.waiters.filter RecordFile.locked } dir' queued →
          dir.KeepsOthers dir' queued := fun hkeeps =>
        ⟨fun file hmem hlocked hother =>
          hkeeps.1 file (List.mem_filter.mpr ⟨hmem, hlocked⟩) hlocked hother, hkeeps.2⟩
      split at hattempt
      · have hticket : ∀ entry, state.queued = some entry →
            (state.queued.map QueueEntry.ticket).getD U64.max = entry.ticket := by
          intro entry hqueued
          rw [hqueued]
          rfl
        have hlive : ∀ file ∈ dir.waiters.filter RecordFile.locked, file.locked = true →
            ∀ record, file.contents = .record record → record ∈ waiting :=
          fun file hmem => hwaiting file (List.mem_of_mem_filter hmem)
        rcases enqueue_queue hticket hlive hattempt with ⟨hsame, hkeeps⟩ | ⟨hkeeps, entry, hrecords⟩
        · exact .inl ⟨hsame, hkept hkeeps⟩
        · refine .inr ⟨hkept hkeeps, .inr ⟨entry, hrecords.queued, hrecords.ticket,
            hrecords.process, hrecords.counted, hrecords.recorded, ?_⟩⟩
          exact hrecords.next.imp_right fun ⟨hqueued, hlarger⟩ =>
            ⟨hqueued, fun file hmem hlocked =>
              hlarger file (List.mem_filter.mpr ⟨hmem, hlocked⟩) hlocked⟩
      · rcases grant_queue hattempt with ⟨hsame, hkeeps⟩ | ⟨hkeeps, hnone⟩
        · exact .inl ⟨hsame, hkept hkeeps⟩
        · exact .inr ⟨hkept hkeeps, .inl hnone⟩

end Pool

end MrBoxington.Scheduler
