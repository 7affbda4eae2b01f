import MrBoxington.Scheduler.Tickets

/-!
# Tickets stay in order

Every queued call has a locked file with its record, so that a scan sees all tickets: the
next ticket is larger than those of all calls that are queued. Names of files are never used
twice, so that whoever leaves the queue, in however many steps, touches only its own file.
-/

namespace MrBoxington.Scheduler

/-- What holds in every state of the queue. -/
structure TicketInv (s : QueueState) : Prop where
  recorded : ∀ w entry, s.entry w = some entry → entry.recordFile ∈ s.dir.waiters
  /-- The record has the ticket of the entry, and the file the name of its process. -/
  own : ∀ w entry, s.entry w = some entry →
    entry.record.ticket = entry.ticket ∧ entry.file.process = w.process
  counted : ∀ w entry, s.entry w = some entry →
    entry.file.nonce < s.dir.nonce entry.file.process
  leavingCounted : ∀ name ∈ s.leaving, name.nonce < s.dir.nonce name.process
  left : ∀ w entry, s.entry w = some entry → entry.file ∉ s.leaving
  unshared : ∀ w w' entry entry', s.entry w = some entry → s.entry w' = some entry' →
    entry.file = entry'.file → w = w'
  past : ∀ w entry, s.entry w = some entry → s.enqueued w < s.now
  distinct : ∀ w w' entry entry', s.entry w = some entry → s.entry w' = some entry' →
    s.enqueued w = s.enqueued w' → w = w'
  ordered : ∀ w w' entry entry', s.entry w = some entry → s.entry w' = some entry' →
    s.enqueued w < s.enqueued w' → entry.ticket < entry'.ticket

private theorem QueueState.Idle.ticketInv {s : QueueState} (hidle : s.Idle) : TicketInv s := by
  have hnone : ∀ w entry, s.entry w ≠ some entry := fun w entry h => by
    simp [QueueState.entry, hidle.waiting w] at h
  refine ⟨?_, ?_, ?_, by simp [hidle.leaving], ?_, ?_, ?_, ?_, ?_⟩ <;>
    intros <;> exact absurd ‹_› (hnone _ _)

namespace TicketInv

variable {s t : QueueState}

private theorem keep (hinv : TicketInv s)
    (hentry : ∀ w entry, t.entry w = some entry →
      s.entry w = some entry ∧ t.enqueued w = s.enqueued w)
    (hnow : s.now ≤ t.now)
    (hfiles : ∀ w entry, t.entry w = some entry → entry.recordFile ∈ t.dir.waiters)
    (hnonce : ∀ process, s.dir.nonce process ≤ t.dir.nonce process)
    (hleaving : ∀ name ∈ t.leaving, name.nonce < s.dir.nonce name.process)
    (hleft : ∀ w entry, t.entry w = some entry → entry.file ∉ t.leaving) : TicketInv t where
  recorded := hfiles
  own w entry h := hinv.own w entry (hentry w entry h).1
  counted w entry h := (hinv.counted w entry (hentry w entry h).1).trans_le (hnonce _)
  leavingCounted name h := (hleaving name h).trans_le (hnonce _)
  left := hleft
  unshared w w' entry entry' h h' :=
    hinv.unshared w w' entry entry' (hentry w entry h).1 (hentry w' entry' h').1
  past w entry h := by
    rw [(hentry w entry h).2]
    exact (hinv.past w entry (hentry w entry h).1).trans_le hnow
  distinct w w' entry entry' h h' := by
    rw [(hentry w entry h).2, (hentry w' entry' h').2]
    exact hinv.distinct w w' entry entry' (hentry w entry h).1 (hentry w' entry' h').1
  ordered w w' entry entry' h h' := by
    rw [(hentry w entry h).2, (hentry w' entry' h').2]
    exact hinv.ordered w w' entry entry' (hentry w entry h).1 (hentry w' entry' h').1

/-- A call writes its record, with the ticket it had or with a larger one than all others. -/
theorem write (hinv : TicketInv s) {w : Waiter} {entry : QueueEntry}
    (hself : t.entry w = some entry)
    (hothers : ∀ q, q ≠ w → t.entry q = s.entry q ∧ t.enqueued q = s.enqueued q)
    (hnow : s.now < t.now) (hleaving : t.leaving = s.leaving)
    (hnonce : ∀ process, s.dir.nonce process ≤ t.dir.nonce process)
    (hfiles : ∀ q other, q ≠ w → s.entry q = some other → other.recordFile ∈ t.dir.waiters)
    (hfile : entry.recordFile ∈ t.dir.waiters)
    (hown : entry.record.ticket = entry.ticket ∧ entry.file.process = w.process)
    (hcounted : s.dir.nonce w.process ≤ entry.file.nonce ∧
      entry.file.nonce < t.dir.nonce w.process)
    (hticket : (∃ old, s.entry w = some old ∧ entry.ticket = old.ticket ∧
        t.enqueued w = s.enqueued w) ∨
      t.enqueued w = s.now ∧ ∀ q other, q ≠ w → s.entry q = some other →
        other.ticket < entry.ticket) : TicketInv t := by
  -- What is known of each entry: it is the new one, or another call's.
  have hentry : ∀ q other, t.entry q = some other → q = w ∧ other = entry ∨
      q ≠ w ∧ s.entry q = some other ∧ t.enqueued q = s.enqueued q := by
    intro q other h
    by_cases hq : q = w
    · subst hq
      exact .inl ⟨rfl, Option.some.inj (h.symm.trans hself)⟩
    · exact .inr ⟨hq, (hothers q hq).1 ▸ h, (hothers q hq).2⟩
  -- The new name was not used before.
  have hnew : ∀ name : FileName, name.nonce < s.dir.nonce name.process → entry.file ≠ name := by
    rintro name hlt rfl
    rw [hown.2] at hlt
    exact absurd hlt (Nat.not_lt.mpr hcounted.1)
  -- The call was queued at another time than the others, and its ticket is in that order.
  have hplace : ∀ q other, q ≠ w → s.entry q = some other → t.enqueued w ≠ s.enqueued q ∧
      (t.enqueued w < s.enqueued q → entry.ticket < other.ticket) ∧
      (s.enqueued q < t.enqueued w → other.ticket < entry.ticket) := by
    intro q other hq hother
    rcases hticket with ⟨old, hold, hsame, htime⟩ | ⟨htime, hlarger⟩
    · rw [htime, hsame]
      exact ⟨fun h => hq (hinv.distinct w q old other hold hother h).symm,
        hinv.ordered w q old other hold hother, hinv.ordered q w other old hother hold⟩
    · have hpast := hinv.past q other hother
      rw [htime]
      exact ⟨Nat.ne_of_gt hpast, fun h => absurd h (Nat.not_lt.mpr hpast.le),
        fun _ => hlarger q other hq hother⟩
  constructor
  · intro q other h
    rcases hentry q other h with ⟨rfl, rfl⟩ | ⟨hq, hold, -⟩
    · exact hfile
    · exact hfiles q other hq hold
  · intro q other h
    rcases hentry q other h with ⟨rfl, rfl⟩ | ⟨-, hold, -⟩
    · exact hown
    · exact hinv.own q other hold
  · intro q other h
    rcases hentry q other h with ⟨rfl, rfl⟩ | ⟨-, hold, -⟩
    · rw [hown.2]
      exact hcounted.2
    · exact (hinv.counted q other hold).trans_le (hnonce _)
  · rw [hleaving]
    exact fun name h => (hinv.leavingCounted name h).trans_le (hnonce _)
  · intro q other h
    rw [hleaving]
    rcases hentry q other h with ⟨rfl, rfl⟩ | ⟨-, hold, -⟩
    · exact fun hmem => hnew _ (hinv.leavingCounted _ hmem) rfl
    · exact hinv.left q other hold
  · intro q q' other other' h h' hname
    rcases hentry q other h with ⟨rfl, rfl⟩ | ⟨-, hold, -⟩
    · rcases hentry q' other' h' with ⟨rfl, rfl⟩ | ⟨-, hold', -⟩
      · rfl
      · exact absurd hname (hnew _ (hinv.counted q' other' hold'))
    · rcases hentry q' other' h' with ⟨rfl, rfl⟩ | ⟨-, hold', -⟩
      · exact absurd hname.symm (hnew _ (hinv.counted q other hold))
      · exact hinv.unshared q q' other other' hold hold' hname
  · intro q other h
    rcases hentry q other h with ⟨rfl, rfl⟩ | ⟨-, hold, htime⟩
    · rcases hticket with ⟨old, hold, -, htime⟩ | ⟨htime, -⟩
      · rw [htime]
        exact (hinv.past q old hold).trans hnow
      · rwa [htime]
    · rw [htime]
      exact (hinv.past q other hold).trans hnow
  · intro q q' other other' h h' hsame
    rcases hentry q other h with ⟨rfl, rfl⟩ | ⟨hq, hold, htime⟩
    · rcases hentry q' other' h' with ⟨rfl, rfl⟩ | ⟨hq', hold', htime'⟩
      · rfl
      · exact absurd (hsame.trans htime') (hplace q' other' hq' hold').1
    · rcases hentry q' other' h' with ⟨rfl, rfl⟩ | ⟨-, hold', htime'⟩
      · exact absurd (hsame.symm.trans htime) (hplace q other hq hold).1
      · exact hinv.distinct q q' other other' hold hold' (htime ▸ htime' ▸ hsame)
  · intro q q' other other' h h' hlt
    rcases hentry q other h with ⟨rfl, rfl⟩ | ⟨hq, hold, htime⟩
    · rcases hentry q' other' h' with ⟨rfl, rfl⟩ | ⟨hq', hold', htime'⟩
      · exact absurd hlt (Nat.lt_irrefl _)
      · exact (hplace q' other' hq' hold').2.1 (htime' ▸ hlt)
    · rcases hentry q' other' h' with ⟨rfl, rfl⟩ | ⟨-, hold', htime'⟩
      · exact (hplace q other hq hold).2.2 (htime ▸ hlt)
      · exact hinv.ordered q q' other other' hold hold' (htime ▸ htime' ▸ hlt)

private theorem keeps_others (hinv : TicketInv s) {w q : Waiter} {state : AdmissionState}
    {other : QueueEntry} {dir : PoolState} (hstate : s.waiting w = some state) (hq : q ≠ w)
    (hother : s.entry q = some other) (hkeeps : s.dir.KeepsOthers dir state.queued) :
    other.recordFile ∈ dir.waiters := by
  refine hkeeps.1 _ (hinv.recorded q other hother) rfl fun entry hqueued hname => hq ?_
  exact hinv.unshared q w other entry hother (by simp [QueueState.entry, hstate, hqueued]) hname

private theorem attempt (hinv : TicketInv s) {w : Waiter} {state state' : AdmissionState}
    {dir : PoolState} (hstate : s.waiting w = some state)
    (hcases : (state' = state ∧ s.dir.KeepsOthers dir none) ∨
      s.dir.KeepsOthers dir state.queued ∧ (state'.queued = none ∨
        ∃ entry, Pool.Records w.process state state' s.dir dir entry)) :
    TicketInv (s.attempted w state state' dir) := by
  have hentry : s.entry w = state.queued := by simp [QueueState.entry, hstate]
  have hothers : ∀ q, q ≠ w → (s.attempted w state state' dir).entry q = s.entry q ∧
      (s.attempted w state state' dir).enqueued q = s.enqueued q := by
    intro q hq
    refine ⟨by simp [hq], ?_⟩
    simp only [QueueState.attempted]
    split <;> simp [hq]
  rcases hcases with ⟨rfl, hkeeps⟩ | ⟨hkeeps, hnone | ⟨entry, hrecords⟩⟩
  · have hsame : ∀ q, (s.attempted w state' state' dir).entry q = s.entry q := by
      intro q
      by_cases hq : q = w
      · simp [hq, hentry]
      · exact (hothers q hq).1
    refine hinv.keep (fun q entry h => ⟨hsame q ▸ h, ?_⟩) (Nat.le_succ _) (fun q entry h => ?_)
      hkeeps.2 hinv.leavingCounted fun q entry h => hinv.left q entry (hsame q ▸ h)
    · cases hqueued : state'.queued <;> simp [QueueState.attempted, hqueued]
    · exact hkeeps.1 _ (hinv.recorded q entry (hsame q ▸ h)) rfl fun _ hnone => by cases hnone
  · have hleft : ∀ q entry, (s.attempted w state state' dir).entry q = some entry →
        q ≠ w ∧ s.entry q = some entry := by
      intro q entry h
      by_cases hq : q = w
      · simp [hq, hnone] at h
      · exact ⟨hq, (hothers q hq).1 ▸ h⟩
    refine hinv.keep (fun q entry h => ⟨(hleft q entry h).2, (hothers q (hleft q entry h).1).2⟩)
      (Nat.le_succ _) (fun q entry h => ?_) hkeeps.2 hinv.leavingCounted
      fun q entry h => hinv.left q entry (hleft q entry h).2
    exact hinv.keeps_others hstate (hleft q entry h).1 (hleft q entry h).2 hkeeps
  · refine hinv.write (w := w) (by simpa using hrecords.queued) hothers (Nat.lt_succ_self _) rfl
      hkeeps.2 (fun q other hq hother => hinv.keeps_others hstate hq hother hkeeps)
      hrecords.recorded ⟨hrecords.ticket, hrecords.process⟩ hrecords.counted ?_
    rcases hrecords.next with ⟨old, hold, hsame⟩ | ⟨hnew, hlarger⟩
    · exact .inl ⟨old, hentry.trans hold, hsame, by simp [QueueState.attempted, hold]⟩
    · refine .inr ⟨by simp [QueueState.attempted, hnew, hrecords.queued], ?_⟩
      intro q other hq hother
      rw [← (hinv.own q other hother).1]
      exact hlarger _ (hinv.recorded q other hother) rfl _ rfl

private theorem mem_changeFiles (which : FileName → Bool)
    (change : RecordFile Waiting → RecordFile Waiting) {files : List (RecordFile Waiting)}
    {file : RecordFile Waiting} (hmem : file ∈ files) (hother : which file.name = false) :
    file ∈ changeFiles which change files :=
  List.mem_map.mpr ⟨file, hmem, by simp [hother]⟩

private theorem step {sort : TicketSort} (hinv : TicketInv s) (hstep : QueueStep sort s t) :
    TicketInv t := by
  -- Steps that only change files, but not those of queued calls.
  have hfiles : ∀ dir : PoolState,
      (∀ w entry, s.entry w = some entry → entry.recordFile ∈ dir.waiters) →
      (∀ process, s.dir.nonce process ≤ dir.nonce process) → TicketInv (s.setDir dir) :=
    fun dir hmem hnonce => hinv.keep (fun w entry h => ⟨h, rfl⟩) (Nat.le_refl _) hmem hnonce
      hinv.leavingCounted hinv.left
  cases hstep with
  | arrive w firstArrivalMs hnew =>
    have hsame : ∀ q, (s.setWaiting w (some ⟨none, firstArrivalMs⟩)).entry q = s.entry q := by
      intro q
      by_cases hq : q = w
      · rw [QueueState.setWaiting_entry, if_pos hq, hq]
        simp [QueueState.entry, hnew]
      · simp [hq]
    exact hinv.keep (fun q entry h => ⟨hsame q ▸ h, rfl⟩) (Nat.le_refl _)
      (fun q entry h => hinv.recorded q entry (hsame q ▸ h)) (fun _ => Nat.le_refl _)
      hinv.leavingCounted fun q entry h => hinv.left q entry (hsame q ▸ h)
  | attempt w pool readings resources weight predicted demand state state' outcome leases waiters
      dir hstate hleases hwaiters hattempt =>
    refine hinv.attempt hstate ?_
    have hmem : ∀ file, file ∈ s.dir.waiters → file ∈ waiters := fun file => hwaiters.mem_iff.mpr
    rcases Pool.tryAdmitInner_queue hattempt with ⟨hsame, hkeeps⟩ | ⟨hkeeps, hqueue⟩
    · exact .inl ⟨hsame, fun file h => hkeeps.1 file (hmem file h), hkeeps.2⟩
    · refine .inr ⟨⟨fun file h => hkeeps.1 file (hmem file h), hkeeps.2⟩, hqueue.imp_right ?_⟩
      rintro ⟨entry, hrecords⟩
      exact ⟨entry, hrecords.queued, hrecords.ticket, hrecords.process, hrecords.counted,
        hrecords.recorded, hrecords.next.imp_right fun h => ⟨h.1, fun file hfile =>
          h.2 file (hmem file hfile)⟩⟩
  | cutShort leases waiters nonce hleases hwaiters hnonce =>
    refine hfiles _ (fun w entry h => ?_) hnonce
    have hlocked : entry.recordFile ∈ s.dir.waiters.filter RecordFile.locked :=
      List.mem_filter.mpr ⟨hinv.recorded w entry h, rfl⟩
    exact List.mem_of_mem_filter (hwaiters.mem_iff.mpr hlocked)
  | release w state entry emptied hstate hqueued =>
    have hentry : s.entry w = some entry := by simp [QueueState.entry, hstate, hqueued]
    have hleft : ∀ q other, (s.release w state entry emptied).entry q = some other →
        q ≠ w ∧ s.entry q = some other := by
      intro q other h
      by_cases hq : q = w
      · simp [hq] at h
      · exact ⟨hq, by simpa [hq] using h⟩
    have hname : ∀ q other, (s.release w state entry emptied).entry q = some other →
        other.file ≠ entry.file := fun q other h hname =>
      (hleft q other h).1 (hinv.unshared q w other entry (hleft q other h).2 hentry hname)
    refine hinv.keep (fun q other h => ⟨(hleft q other h).2, rfl⟩) (Nat.le_refl _) ?_ ?_ ?_ ?_
    · intro q other h
      have hold := hinv.recorded q other (hleft q other h).2
      cases emptied with
      | false => exact hold
      | true =>
        exact mem_changeFiles (fun name => decide (name = entry.file)) _ hold
          (decide_eq_false (hname q other h))
    · cases emptied <;> exact fun _ => Nat.le_refl _
    · intro name h
      rcases List.mem_cons.mp h with rfl | h
      · exact hinv.counted w entry hentry
      · exact hinv.leavingCounted name h
    · intro q other h hmem
      rcases List.mem_cons.mp hmem with hsame | hmem
      · exact hname q other h hsame
      · exact hinv.left q other (hleft q other h).2 hmem
  | unlock name hleaving =>
    refine hfiles _ (fun w entry h => ?_) fun _ => Nat.le_refl _
    refine mem_changeFiles (fun other => decide (other = name)) _ (hinv.recorded w entry h)
      (decide_eq_false ?_)
    rintro rfl
    exact hinv.left w entry h hleaving
  | remove name hleaving =>
    refine hfiles _ (fun w entry h => ?_) fun _ => Nat.le_refl _
    exact List.mem_filter.mpr ⟨hinv.recorded w entry h, by simp [QueueEntry.recordFile]⟩
  | finish w state hstate hqueued =>
    have hleft : ∀ q other, (s.setWaiting w none).entry q = some other →
        s.entry q = some other := by
      intro q other h
      by_cases hq : q = w
      · simp [hq] at h
      · simpa [hq] using h
    exact hinv.keep (fun q entry h => ⟨hleft q entry h, rfl⟩) (Nat.le_refl _)
      (fun q entry h => hinv.recorded q entry (hleft q entry h)) (fun _ => Nat.le_refl _)
      hinv.leavingCounted fun q entry h => hinv.left q entry (hleft q entry h)
  | dropPermit name hheld => exact hfiles _ hinv.recorded fun _ => Nat.le_refl _
  | removeLease name hclosing => exact hfiles _ hinv.recorded fun _ => Nat.le_refl _
  | die process =>
    have hleft : ∀ q other, (s.die process).entry q = some other →
        q.process ≠ process ∧ s.entry q = some other := by
      intro q other h
      by_cases hq : q.process = process
      · simp [hq] at h
      · exact ⟨hq, by simpa [hq] using h⟩
    refine hinv.keep (fun q entry h => ⟨(hleft q entry h).2, rfl⟩) (Nat.le_refl _)
      (fun q entry h => ?_) (fun _ => Nat.le_refl _)
      (fun name h => hinv.leavingCounted name (List.mem_of_mem_filter h))
      fun q entry h hmem => hinv.left q entry (hleft q entry h).2 (List.mem_of_mem_filter hmem)
    refine mem_changeFiles (fun name => decide (name.process = process)) _
      (hinv.recorded q entry (hleft q entry h).2) (decide_eq_false ?_)
    rw [QueueEntry.recordFile, (hinv.own q entry (hleft q entry h).2).2]
    exact (hleft q entry h).1

end TicketInv

private theorem QueueStep.ticket_eq {sort : TicketSort} {s t : QueueState}
    (hstep : QueueStep sort s t)
    {w : Waiter} {entry entry' : QueueEntry} (h : s.entry w = some entry)
    (h' : t.entry w = some entry') :
    entry'.ticket = entry.ticket ∧ t.enqueued w = s.enqueued w := by
  have hkept : s.entry w = some entry' → entry'.ticket = entry.ticket := fun hsame =>
    congrArg QueueEntry.ticket (Option.some.inj (hsame.symm.trans h))
  cases hstep with
  | attempt q pool readings resources weight predicted demand state state' outcome leases waiters
      dir hstate hleases hwaiters hattempt =>
    by_cases hq : w = q
    · subst hq
      have hqueued : state.queued = some entry := by
        simpa [QueueState.entry, hstate] using h
      have hqueued' : state'.queued = some entry' := by simpa using h'
      refine ⟨?_, by simp [QueueState.attempted, hqueued]⟩
      rcases Pool.tryAdmitInner_queue hattempt with ⟨rfl, -⟩ | ⟨-, hnone | ⟨record, hrecords⟩⟩
      · exact congrArg QueueEntry.ticket (Option.some.inj (hqueued'.symm.trans hqueued))
      · cases hqueued'.symm.trans hnone
      · obtain rfl : record = entry' := Option.some.inj (hrecords.queued.symm.trans hqueued')
        rcases hrecords.next with ⟨old, hold, hsame⟩ | ⟨hnone, -⟩
        · obtain rfl : old = entry := Option.some.inj (hold.symm.trans hqueued)
          exact hsame
        · cases hqueued.symm.trans hnone
    · refine ⟨hkept (by simpa [hq] using h'), ?_⟩
      simp only [QueueState.attempted]
      split <;> simp [hq]
  | arrive q firstArrivalMs hnew =>
    by_cases hq : w = q
    · simp [hq] at h'
    · exact ⟨hkept (by simpa [hq] using h'), rfl⟩
  | release q state dropped emptied hstate hqueued =>
    by_cases hq : w = q
    · simp [hq] at h'
    · exact ⟨hkept (by simpa [hq] using h'), rfl⟩
  | finish q state hstate hqueued =>
    by_cases hq : w = q
    · simp [hq] at h'
    · exact ⟨hkept (by simpa [hq] using h'), rfl⟩
  | die process =>
    by_cases hw : w.process = process
    · simp [hw] at h'
    · exact ⟨hkept (by simpa [hw] using h'), rfl⟩
  | _ => exact ⟨hkept h', rfl⟩

/-- In every run, queued calls have different tickets, in the order in which they were queued,
and these are in the locked records that scans read; and no step changes the ticket of a call
that is queued before and after it. -/
theorem tickets_ordered {sort : TicketSort} {s : QueueState}
    (hreach : Runs.Reachable QueueState.Idle (QueueStep sort) s) :
    (∀ w w' entry entry', s.entry w = some entry → s.entry w' = some entry' → w ≠ w' →
      entry.ticket ≠ entry'.ticket ∧ (s.enqueued w < s.enqueued w' ∨ s.enqueued w' < s.enqueued w) ∧
        (s.enqueued w < s.enqueued w' → entry.ticket < entry'.ticket)) ∧
    (∀ w entry, s.entry w = some entry →
      ⟨entry.file, true, .record entry.record⟩ ∈ s.dir.waiters ∧
        entry.record.ticket = entry.ticket) ∧
    ∀ t, QueueStep sort s t → ∀ w entry entry', s.entry w = some entry →
      t.entry w = some entry' → entry'.ticket = entry.ticket ∧ t.enqueued w = s.enqueued w := by
  have hinv : TicketInv s := hreach.invariant (fun _ h => h.ticketInv) fun _ _ h hstep =>
    h.step hstep
  refine ⟨fun w w' entry entry' h h' hne => ?_, fun w entry h =>
    ⟨hinv.recorded w entry h, (hinv.own w entry h).1⟩, fun t hstep w entry entry' h h' => ?_⟩
  · have hapart : s.enqueued w < s.enqueued w' ∨ s.enqueued w' < s.enqueued w :=
      Nat.lt_or_gt_of_ne fun hsame => hne (hinv.distinct w w' entry entry' h h' hsame)
    refine ⟨fun hsame => ?_, hapart, hinv.ordered w w' entry entry' h h'⟩
    rcases hapart with hlt | hlt
    · have := hinv.ordered w w' entry entry' h h' hlt
      exact UInt64.lt_irrefl _ (hsame ▸ this)
    · have := hinv.ordered w' w entry' entry h' h hlt
      exact UInt64.lt_irrefl _ (hsame ▸ this)
  · exact hstep.ticket_eq h h'

/-- A queue on a fresh directory. -/
def emptyQueue : QueueState where
  dir := emptyDirectory
  waiting _ := none
  leaving := []
  enqueued _ := 0
  now := 0

private theorem emptyQueue_idle : emptyQueue.Idle :=
  ⟨⟨by simp [emptyQueue, emptyDirectory], rfl, rfl⟩, by simp [emptyQueue, emptyDirectory],
    fun _ => rfl, rfl⟩

/-- One attempt of a call of the small pool that waits. -/
def QueueState.smallAttempt (s : QueueState) (w : Waiter) (cpu : UInt64) : QueueState :=
  let state := (s.waiting w).getD ⟨none, 0⟩
  let result := smallPool.tryAdmitInner TicketSort.insertion w.process quietReadings ⟨cpu, 1⟩ 1
    none none state s.dir
  s.attempted w state result.2.1 result.2.2

private theorem smallAttempt_step {s : QueueState} {w : Waiter} (cpu : UInt64)
    (hstate : (s.waiting w).isSome = true) :
    QueueStep TicketSort.insertion s (s.smallAttempt w cpu) := by
  obtain ⟨state, hstate⟩ := Option.isSome_iff_exists.mp hstate
  have hget : (s.waiting w).getD ⟨none, 0⟩ = state := by simp [hstate]
  unfold QueueState.smallAttempt
  rw [hget]
  exact .attempt w smallPool quietReadings ⟨cpu, 1⟩ 1 none none state _ _ s.dir.leases
    s.dir.waiters _ hstate (List.Perm.refl _) (List.Perm.refl _) rfl

/-- One call is admitted, two more are queued, and the first of them asks for more. -/
def requeued : QueueState :=
  let arrived := ((emptyQueue.setWaiting ⟨7, 0⟩ (some ⟨none, 0⟩)).setWaiting ⟨7, 1⟩
    (some ⟨none, 0⟩)).setWaiting ⟨8, 0⟩ (some ⟨none, 0⟩)
  (((arrived.smallAttempt ⟨7, 0⟩ 3).smallAttempt ⟨7, 1⟩ 2).smallAttempt ⟨8, 0⟩ 2).smallAttempt
    ⟨7, 1⟩ 3

/-- It keeps its place. -/
theorem tickets_ordered_requeued :
    (requeued.entry ⟨7, 1⟩).map (fun entry => (entry.ticket, entry.record.cpu)) =
        some (1, some 3) ∧
      (requeued.entry ⟨8, 0⟩).map QueueEntry.ticket = some 2 ∧
      requeued.enqueued ⟨7, 1⟩ < requeued.enqueued ⟨8, 0⟩ ∧
      ∀ entry entry', requeued.entry ⟨7, 1⟩ = some entry → requeued.entry ⟨8, 0⟩ = some entry' →
        entry.ticket < entry'.ticket := by
  have hstart : Runs.Reachable QueueState.Idle (QueueStep TicketSort.insertion) emptyQueue :=
    .start emptyQueue_idle
  have harrived := ((hstart.next (.arrive ⟨7, 0⟩ 0 rfl)).next (.arrive ⟨7, 1⟩ 0 rfl)).next
    (.arrive ⟨8, 0⟩ 0 rfl)
  have hadmitted := harrived.next (smallAttempt_step (w := ⟨7, 0⟩) 3 (by decide))
  have hfirst := hadmitted.next (smallAttempt_step (w := ⟨7, 1⟩) 2 (by decide +kernel))
  have hsecond := hfirst.next (smallAttempt_step (w := ⟨8, 0⟩) 2 (by decide +kernel))
  have hagain := hsecond.next (smallAttempt_step (w := ⟨7, 1⟩) 3 (by decide +kernel))
  have hlt : requeued.enqueued ⟨7, 1⟩ < requeued.enqueued ⟨8, 0⟩ := by decide +kernel
  exact ⟨by decide +kernel, by decide +kernel, hlt, fun entry entry' h h' =>
    ((tickets_ordered hagain).1 ⟨7, 1⟩ ⟨8, 0⟩ entry entry' h h' (by decide)).2.2 hlt⟩

end MrBoxington.Scheduler
