import Mathlib.Data.Finset.Insert
import MrBoxington.Uploads.QueueRuns

/-!
# Tickets that nobody has polled

Peeking at a ticket shows its outcome only after somebody polled it to its end. The tickets
of blobs are polled by the action results that wait for them, one after another, up to the
first one that was not published. So the outcome of a failed upload stays hidden until an
action result gets to it, and the blob is not queued again before that.
-/

namespace MrBoxington.Uploads

open Protocol (Digest ActionResult)

/-- The queue, and the tickets that were polled to their end. -/
structure PolledState (κ : Type) where
  queue : State κ
  polled : Finset Ticket

section Steps

variable {κ : Type} [DecidableEq κ]

/-- What peeking at a ticket shows. -/
def PolledState.peek (s : PolledState κ) (ticket : Ticket) : Option UploadOutcome :=
  if ticket ∈ s.polled then s.queue.outcome ticket else none

/-- The ticket of a blob that is queued again is used if it shows no outcome or a good
one. -/
def PolledState.usable (s : PolledState κ) (ticket : Ticket) : Bool :=
  s.peek ticket = none ∨ s.peek ticket = some .uploaded

/-- A connection that holds the lock of the blob tickets looks for a ticket. -/
inductive QueueBlobStep (c : κ) (digest : Digest) : PolledState κ → PolledState κ → Prop
  | reuse (s : PolledState κ) (ticket : Ticket) (hlocked : s.queue.phase c = .locked digest)
      (hticket : s.queue.blobTickets[digest]? = some ticket) (husable : s.usable ticket = true) :
      QueueBlobStep c digest s
        { s with queue :=
          { s.queue with
            lock := none, phase := Function.update s.queue.phase c (.recording ticket) } }
  | insert (s : PolledState κ) (hlocked : s.queue.phase c = .locked digest)
      (hfresh : ∀ ticket, s.queue.blobTickets[digest]? = some ticket → s.usable ticket = false) :
      QueueBlobStep c digest s
        { s with queue :=
          { s.queue with
            blobTickets := s.queue.blobTickets.insert digest s.queue.next
            next := s.queue.next + 1
            phase := Function.update s.queue.phase c (.inserted ⟨digest, s.queue.next⟩) } }

/-- An action result polls the next ticket that it waits for. -/
inductive PollStep : PolledState κ → PolledState κ → Prop
  | await (s : PolledState κ) (before after : List ResultTask) (queued : QueuedResult)
      (ticket : Ticket) (remaining : List Ticket)
      (hworker : s.queue.worker =
        .results (before ++ .awaiting queued (ticket :: remaining) :: after))
      (houtcome : s.queue.outcome ticket = some .uploaded) :
      PollStep s
        ⟨{ s.queue with worker := .results (before ++ .awaiting queued remaining :: after) },
          insert ticket s.polled⟩
  | skip (s : PolledState κ) (before after : List ResultTask) (queued : QueuedResult)
      (ticket : Ticket) (remaining : List Ticket) (outcome : UploadOutcome)
      (hworker : s.queue.worker =
        .results (before ++ .awaiting queued (ticket :: remaining) :: after))
      (houtcome : s.queue.outcome ticket = some outcome)
      (hpublished : outcome.published = false) :
      PollStep s
        ⟨{ s.queue with
            worker := .results (before ++ .report queued.ticket .skipped :: after) },
          insert ticket s.polled⟩

/-- The worker polls a ticket. -/
def Polls (s t : State κ) : Prop :=
  ∃ before after queued ticket remaining task,
    s.worker = .results (before ++ .awaiting queued (ticket :: remaining) :: after) ∧
      t.worker = .results (before ++ task :: after)

/-- One step of a connection or of the worker. -/
inductive PolledStep : PolledState κ → PolledState κ → Prop
  | queueBlob (c : κ) (digest : Digest) {s t : PolledState κ} (hstep : QueueBlobStep c digest s t) :
      PolledStep s t
  | connection (c : κ) {s : PolledState κ} {t : State κ} (hstep : ConnectionStep c s.queue t)
      (hunlocked : ∀ digest, s.queue.phase c ≠ .locked digest) : PolledStep s ⟨t, s.polled⟩
  | poll {s t : PolledState κ} (hstep : PollStep s t) : PolledStep s t
  | work {s : PolledState κ} {t : State κ} (hstep : WorkerStep s.queue t)
      (hquiet : ¬Polls s.queue t) : PolledStep s ⟨t, s.polled⟩

/-- Before anything is queued. -/
def PolledState.Initial (s : PolledState κ) : Prop := s.queue.Initial ∧ s.polled = ∅

/-- The most recent upload of a digest has ended without being published. -/
def PolledState.EndedUnpublished (s : PolledState κ) (digest : Digest) (ticket : Ticket) : Prop :=
  s.queue.blobTickets[digest]? = some ticket ∧
    ∃ outcome, s.queue.outcome ticket = some outcome ∧ outcome ≠ .uploaded

end Steps

section Refinement

variable {κ : Type} [DecidableEq κ] {s t : PolledState κ}

private theorem QueueBlobStep.queue {c : κ} {digest : Digest} (hstep : QueueBlobStep c digest s t) :
    ConnectionStep c s.queue t.queue := by
  have husable : ∀ ticket, reusable (s.queue.outcome ticket) (ticket ∈ s.polled) =
      s.usable ticket := by
    intro ticket
    unfold PolledState.usable PolledState.peek reusable
    by_cases hpolled : ticket ∈ s.polled
    · cases s.queue.outcome ticket <;> simp [hpolled, UploadOutcome.published]
    · simp [hpolled]
  cases hstep with
  | reuse ticket hlocked hticket husable' =>
    exact .reuse s.queue digest ticket _ hlocked hticket ((husable ticket).trans husable')
  | insert hlocked hfresh =>
    cases hticket : s.queue.blobTickets[digest]? with
    | none =>
      refine .insert s.queue digest false hlocked fun ticket hsome => ?_
      rw [hticket] at hsome
      cases hsome
    | some ticket =>
      refine .insert s.queue digest (ticket ∈ s.polled) hlocked fun other hsome => ?_
      rw [hticket] at hsome
      cases hsome
      exact (husable ticket).trans (hfresh ticket hticket)

private theorem PolledStep.queue (hstep : PolledStep s t) : Step s.queue t.queue := by
  cases hstep with
  | queueBlob c digest hstep => exact .inl ⟨c, hstep.queue⟩
  | connection c hstep => exact .inl ⟨c, hstep⟩
  | poll hstep =>
    cases hstep with
    | await before after queued ticket remaining hworker houtcome =>
      exact .inr (.await s.queue before after queued ticket remaining hworker houtcome)
    | skip before after queued ticket remaining outcome hworker houtcome hpublished =>
      exact .inr (.skip s.queue before after queued ticket remaining outcome hworker houtcome
        hpublished)
  | work hstep => exact .inr hstep

/-- Runs that are polled are runs of the queue. -/
theorem reachable_queue (hreach : Runs.Reachable PolledState.Initial PolledStep s) :
    Runs.Reachable State.Initial Step s.queue := by
  obtain ⟨start, hinitial, hrun⟩ := hreach
  refine ⟨start.queue, hinitial.1, ?_⟩
  exact hrun.lift PolledState.queue fun _ _ hstep => hstep.queue

end Refinement

section Requeue

variable {κ : Type} [DecidableEq κ] {s t : PolledState κ} {c : κ} {digest : Digest}
  {ticket : Ticket}

/-- A request to queue a blob pushes a new upload of it, with a new ticket. -/
def PolledState.Requeues (s : PolledState κ) (c : κ) (digest : Digest) : Prop :=
  ∀ t, QueueBlobStep c digest s t → ∀ u, ConnectionStep c t.queue u →
    u.pending = s.queue.pending ++ [.blob ⟨digest, s.queue.next⟩] ∧
      t.queue.blobTickets[digest]? = some s.queue.next

private theorem ConnectionStep.of_inserted {s t : State κ} {member : PackMember}
    (hstep : ConnectionStep c s t) (hinserted : s.phase c = .inserted member) :
    t.pending = s.pending ++ [.blob member] := by
  cases hstep with
  | pushBlob other hother =>
    rw [hinserted] at hother
    cases hother
    rfl
  | lockBlob _ hphase => rw [hinserted] at hphase; cases hphase
  | reuse _ _ _ hphase => rw [hinserted] at hphase; cases hphase
  | insert _ _ hphase => rw [hinserted] at hphase; cases hphase
  | record _ hphase => rw [hinserted] at hphase; cases hphase
  | gather _ hphase => rw [hinserted] at hphase; cases hphase
  | gatherAll _ hphase => rw [hinserted] at hphase; cases hphase
  | ticketResult _ _ hphase => rw [hinserted] at hphase; cases hphase
  | pushResult _ hphase => rw [hinserted] at hphase; cases hphase

omit [DecidableEq κ] in
/-- Peeking at the ticket of an upload that was not published shows that, once the ticket was
polled. -/
theorem PolledState.EndedUnpublished.usable_iff (hended : s.EndedUnpublished digest ticket) :
    s.usable ticket = true ↔ ticket ∉ s.polled := by
  obtain ⟨-, outcome, houtcome, hne⟩ := hended
  unfold PolledState.usable PolledState.peek
  by_cases hpolled : ticket ∈ s.polled
  · simp [hpolled, houtcome, hne]
  · simp [hpolled]

/-- After an upload of a blob ended without being published, a request queues the blob again
just if some action result has polled the ticket of that upload to its end. -/
theorem requeues_iff_polled (hlocked : s.queue.phase c = .locked digest)
    (hended : s.EndedUnpublished digest ticket) :
    s.Requeues c digest ↔ ticket ∈ s.polled := by
  constructor
  · intro hrequeues
    by_contra hpolled
    have hreuse := QueueBlobStep.reuse s ticket hlocked hended.1
      (hended.usable_iff.mpr hpolled)
    have hrecord := (hrequeues _ hreuse _ (.record _ ticket (Function.update_self ..))).1
    exact absurd hrecord (by simp)
  · intro hpolled t hstep u hpush
    cases hstep with
    | reuse other _ hticket husable =>
      obtain rfl := Option.some.inj (hended.1.symm.trans hticket)
      exact absurd hpolled (hended.usable_iff.mp husable)
    | insert => exact ⟨hpush.of_inserted (Function.update_self ..), by simp⟩

end Requeue

section Sample

private theorem not_polls_of_blobs {κ : Type} {s t : State κ} {tasks : List BlobTask}
    {results : List QueuedResult} (hworker : s.worker = .blobs tasks results) : ¬Polls s t := by
  rintro ⟨before, after, queued, ticket, remaining, task, hresults, -⟩
  rw [hworker] at hresults
  cases hresults

private theorem not_polls_of_waiting {κ : Type} {s t : State κ} (hworker : s.worker = .waiting) :
    ¬Polls s t := by
  rintro ⟨before, after, queued, ticket, remaining, task, hresults, -⟩
  rw [hworker] at hresults
  cases hresults

/-- An upload failed and no action result has polled its ticket: the next request for the blob
uses that ticket, and nothing is queued. -/
theorem failed_upload_not_requeued :
    ∃ s t : PolledState Unit, Runs.Reachable PolledState.Initial PolledStep s ∧
      s.queue.phase () = .locked someDigest ∧ s.EndedUnpublished someDigest 0 ∧
      QueueBlobStep () someDigest s t ∧ t.queue.pending = [] ∧
      t.queue.phase () = .recording 0 := by
  have hstart : Runs.Reachable (@PolledState.Initial Unit) PolledStep ⟨_, ∅⟩ :=
    .start ⟨rfl, rfl⟩
  have hlocked := hstart.next (.connection () (.lockBlob _ someDigest rfl rfl) (by simp))
  have hinserted := hlocked.next (.queueBlob () someDigest (.insert _ rfl (by simp)))
  have hpushed := hinserted.next (.connection () (.pushBlob _ ⟨someDigest, 0⟩ rfl) (by simp))
  have hrecorded := hpushed.next (.connection () (.record _ 0 rfl) (by simp))
  have htaken := hrecorded.next (.work (.take _ none rfl (by simp)) (not_polls_of_waiting rfl))
  have huploaded := htaken.next (.work (.upload _ [] [] _ _ _ rfl (.upload ⟨someDigest, 0⟩ .failed))
    (not_polls_of_blobs rfl))
  have hreported := huploaded.next (.work (.reportBlob _ [] [] 0 .failed _ rfl)
    (not_polls_of_blobs rfl))
  have hagain := hreported.next (.connection () (.lockBlob _ someDigest rfl rfl) (by simp))
  refine ⟨_, _, hagain, rfl, ⟨by simp, .failed, rfl, by decide⟩,
    .reuse _ 0 rfl (by simp) (by simp [PolledState.usable, PolledState.peek]), rfl, rfl⟩

/-- An upload failed and the action result that waited for it was skipped: the next request
for the blob queues it again. -/
theorem requeues_iff_polled_skipped :
    ∃ s : PolledState Unit, Runs.Reachable PolledState.Initial PolledStep s ∧
      s.queue.phase () = .locked someDigest ∧ s.EndedUnpublished someDigest 0 ∧
      s.Requeues () someDigest := by
  have hstart : Runs.Reachable (@PolledState.Initial Unit) PolledStep ⟨_, ∅⟩ :=
    .start ⟨rfl, rfl⟩
  have hlocked := hstart.next (.connection () (.lockBlob _ someDigest rfl rfl) (by simp))
  have hinserted := hlocked.next (.queueBlob () someDigest (.insert _ rfl (by simp)))
  have hpushed := hinserted.next (.connection () (.pushBlob _ ⟨someDigest, 0⟩ rfl) (by simp))
  have hrecorded := hpushed.next (.connection () (.record _ 0 rfl) (by simp))
  have hgathered := hrecorded.next (.connection () (.gather _ someResult rfl (by simp)) (by simp))
  have hticketed := hgathered.next (.connection () (.ticketResult _ someResult [0] rfl) (by simp))
  have hresult := hticketed.next (.connection () (.pushResult _ ⟨someResult, [0], 1⟩ rfl) (by simp))
  have htaken := hresult.next (.work (.take _ none rfl (by simp)) (not_polls_of_waiting rfl))
  have huploaded := htaken.next (.work (.upload _ [] [] _ _ _ rfl (.upload ⟨someDigest, 0⟩ .failed))
    (not_polls_of_blobs rfl))
  have hreported := huploaded.next (.work (.reportBlob _ [] [] 0 .failed _ rfl)
    (not_polls_of_blobs rfl))
  have hstarted := hreported.next (.work (.startResults _ _ rfl) (not_polls_of_blobs rfl))
  have hpolled := hstarted.next
    (.poll (.skip _ [] [] ⟨someResult, [0], 1⟩ 0 [] .failed rfl rfl rfl))
  have hagain := hpolled.next (.connection () (.lockBlob _ someDigest rfl rfl) (by simp))
  refine ⟨_, hagain, rfl, ⟨by simp, .failed, rfl, by decide⟩, ?_⟩
  exact (requeues_iff_polled rfl ⟨by simp, .failed, rfl, by decide⟩).mpr
    (Finset.mem_insert_self _ _)

end Sample

end MrBoxington.Uploads
