import Mathlib.Data.List.Flatten
import Mathlib.Data.List.Perm.Basic
import Mathlib.Logic.Function.Basic
import MrBoxington.Lib.Runs
import MrBoxington.Protocol.Objects

/-!
# The upload queue of a session

Connections queue blobs and action results and hold tickets for them. A worker takes
everything that is queued as a batch, uploads the blobs alone or in packs, and then
publishes the action results, each of which first waits for the tickets of its blobs.
-/

namespace MrBoxington.Uploads

open Protocol (Digest ActionResult)

/-- How one queued upload finished. -/
inductive UploadOutcome where
  | uploaded
  | skipped
  | failed
deriving DecidableEq

/-- Whether the object is visible remotely. -/
def UploadOutcome.published (outcome : UploadOutcome) : Bool := outcome = .uploaded

/-- A handle for awaiting one upload. -/
abbrev Ticket := ℕ

/-- A queued blob. -/
structure PackMember where
  digest : Digest
  ticket : Ticket
deriving DecidableEq

/-- A queued action result. -/
structure QueuedResult where
  result : ActionResult
  prerequisites : List Ticket
  ticket : Ticket
deriving DecidableEq

/-- What is queued. -/
inductive QueuedUpload where
  | blob (member : PackMember)
  | actionResult (queued : QueuedResult)
deriving DecidableEq

/-- The blobs of a batch, in order. -/
def blobsOf (batch : List QueuedUpload) : List PackMember :=
  batch.filterMap fun
    | .blob member => some member
    | .actionResult _ => none

/-- The action results of a batch, in order. -/
def resultsOf (batch : List QueuedUpload) : List QueuedResult :=
  batch.filterMap fun
    | .blob _ => none
    | .actionResult queued => some queued

section Packs

/-- How large a pack may be. -/
structure BlobPackLimits where
  maxItems : ℕ
  maxBytes : ℕ

/-- Addition of 64-bit words clamped at the largest one. -/
def saturatingAdd (left right : ℕ) : ℕ := min (left + right) 18446744073709551615

/-- A group of one is sent alone. -/
def closePack (pack : List PackMember) (packs : List (List PackMember))
    (singles : List PackMember) : List (List PackMember) × List PackMember :=
  if pack.length < 2 then (packs, singles ++ pack) else (packs ++ [pack], singles)

/-- Group the remaining blobs, given the groups so far and the open one with its size. -/
def groupFrom (limits : BlobPackLimits) : List PackMember → List (List PackMember) →
    List PackMember → List PackMember → ℕ → List (List PackMember) × List PackMember
  | [], packs, singles, current, _ => closePack current packs singles
  | member :: rest, packs, singles, current, currentBytes =>
    if limits.maxBytes < member.digest.size then
      groupFrom limits rest packs (singles ++ [member]) current currentBytes
    else if (limits.maxItems ≤ current.length ∨
        limits.maxBytes < saturatingAdd currentBytes member.digest.size) ∧ current ≠ [] then
      let closed := closePack current packs singles
      groupFrom limits rest closed.1 closed.2 [member] (saturatingAdd 0 member.digest.size)
    else
      groupFrom limits rest packs singles (current ++ [member])
        (saturatingAdd currentBytes member.digest.size)

/-- Split blobs into packs the server will accept, and the ones to send alone. -/
def groupIntoPacks (members : List PackMember) (limits : BlobPackLimits) :
    List (List PackMember) × List PackMember :=
  groupFrom limits members [] [] [] 0

end Packs

/-- What is left to do for the blobs of a batch. -/
inductive BlobTask where
  | member (member : PackMember)
  | pack (members : List PackMember)
  | sending (members : List PackMember)
  | report (ticket : Ticket) (outcome : UploadOutcome)

/-- The tickets whose outcome a task will report. -/
def BlobTask.tickets : BlobTask → List Ticket
  | .member m => [m.ticket]
  | .pack members => members.map PackMember.ticket
  | .sending members => members.map PackMember.ticket
  | .report ticket _ => [ticket]

/-- What is left to do for an action result. -/
inductive ResultTask where
  | awaiting (queued : QueuedResult) (remaining : List Ticket)
  | report (ticket : Ticket) (outcome : UploadOutcome)

/-- What the worker does. -/
inductive Worker where
  | waiting
  | blobs (tasks : List BlobTask) (results : List QueuedResult)
  | results (tasks : List ResultTask)

/-- The tasks for the blobs of a batch. Packs need at least two blobs and a server that
takes packs. -/
def blobTasks (limits : Option BlobPackLimits) (blobs : List PackMember) : List BlobTask :=
  if blobs.length < 2 then blobs.map .member
  else
    match limits with
    | none => blobs.map .member
    | some limits =>
      let groups := groupIntoPacks blobs limits
      groups.1.map .pack ++ groups.2.map .member

/-- What a blob task turns into. -/
inductive BlobTask.Next : BlobTask → List BlobTask → Prop
  | upload (m : PackMember) (outcome : UploadOutcome) :
      Next (.member m) [.report m.ticket outcome]
  | present (members : List PackMember) (exist : PackMember → Bool) :
      Next (.pack members)
        ((members.filter fun m => !exist m).map (fun m => .report m.ticket .skipped) ++
          if (members.filter exist).length < 2 then (members.filter exist).map .member
          else [.sending (members.filter exist)])
  /-- No permit was given: a ticket whose sender is dropped reports a failure. -/
  | closed (members : List PackMember) :
      Next (.sending members) (members.map fun m => .report m.ticket .failed)
  | accepted (members : List PackMember) :
      Next (.sending members) (members.map fun m => .report m.ticket .uploaded)
  | refused (members : List PackMember) : Next (.sending members) (members.map .member)

/-- What a connection does. -/
inductive ConnectionPhase where
  | idle
  | locked (digest : Digest)
  /-- It holds the lock and has inserted a ticket; the blob is pushed next. -/
  | inserted (member : PackMember)
  | recording (ticket : Ticket)
  | gathered (result : ActionResult) (prerequisites : List Ticket)
  /-- It has inserted the ticket of the action result, which is pushed next. -/
  | ticketed (queued : QueuedResult)

/-- The queue, its connections and its worker. -/
structure State (κ : Type) where
  pending : List QueuedUpload
  blobTickets : Std.TreeMap Digest Ticket
  lock : Option κ
  actionTickets : Std.TreeMap Digest Ticket
  next : Ticket
  outcome : Ticket → Option UploadOutcome
  tickets : κ → List Ticket
  phase : κ → ConnectionPhase
  worker : Worker
  puts : List QueuedResult

section Steps

variable {κ : Type} [DecidableEq κ]

/-- A ticket may be used again when its outcome is not known or good. An outcome that
nobody has awaited yet is not known. -/
def reusable (outcome : Option UploadOutcome) (awaited : Bool) : Bool :=
  !awaited || outcome.all UploadOutcome.published

/-- The outcome of a ticket. Its sender is used once. -/
def report (outcome : Ticket → Option UploadOutcome) (ticket : Ticket)
    (reported : UploadOutcome) : Ticket → Option UploadOutcome :=
  Function.update outcome ticket (some ((outcome ticket).getD reported))

/-- What a connection may do. -/
inductive ConnectionStep (c : κ) : State κ → State κ → Prop
  | lockBlob (s : State κ) (digest : Digest) (hidle : s.phase c = .idle) (hfree : s.lock = none) :
      ConnectionStep c s
        { s with lock := some c, phase := Function.update s.phase c (.locked digest) }
  | reuse (s : State κ) (digest : Digest) (ticket : Ticket) (awaited : Bool)
      (hlocked : s.phase c = .locked digest) (hticket : s.blobTickets[digest]? = some ticket)
      (hreusable : reusable (s.outcome ticket) awaited) :
      ConnectionStep c s
        { s with lock := none, phase := Function.update s.phase c (.recording ticket) }
  | insert (s : State κ) (digest : Digest) (awaited : Bool)
      (hlocked : s.phase c = .locked digest)
      (hfresh : ∀ ticket, s.blobTickets[digest]? = some ticket →
        reusable (s.outcome ticket) awaited = false) :
      ConnectionStep c s
        { s with
          blobTickets := s.blobTickets.insert digest s.next
          next := s.next + 1
          phase := Function.update s.phase c (.inserted ⟨digest, s.next⟩) }
  | pushBlob (s : State κ) (member : PackMember) (hinserted : s.phase c = .inserted member) :
      ConnectionStep c s
        { s with
          pending := s.pending ++ [.blob member]
          lock := none
          phase := Function.update s.phase c (.recording member.ticket) }
  | record (s : State κ) (ticket : Ticket) (hrecording : s.phase c = .recording ticket) :
      ConnectionStep c s
        { s with
          tickets := Function.update s.tickets c (s.tickets c ++ [ticket])
          phase := Function.update s.phase c .idle }
  | gather (s : State κ) (result : ActionResult) (hidle : s.phase c = .idle)
      (htickets : s.tickets c ≠ []) :
      ConnectionStep c s
        { s with phase := Function.update s.phase c (.gathered result (s.tickets c)) }
  | gatherAll (s : State κ) (result : ActionResult) (hidle : s.phase c = .idle)
      (htickets : s.tickets c = []) (hfree : s.lock = none) :
      ConnectionStep c s
        { s with
          phase := Function.update s.phase c
            (.gathered result (s.blobTickets.toList.map Prod.snd)) }
  | ticketResult (s : State κ) (result : ActionResult) (prerequisites : List Ticket)
      (hgathered : s.phase c = .gathered result prerequisites) :
      ConnectionStep c s
        { s with
          actionTickets := s.actionTickets.insert result.action s.next
          next := s.next + 1
          phase := Function.update s.phase c (.ticketed ⟨result, prerequisites, s.next⟩) }
  | pushResult (s : State κ) (queued : QueuedResult) (hticketed : s.phase c = .ticketed queued) :
      ConnectionStep c s
        { s with
          pending := s.pending ++ [.actionResult queued]
          phase := Function.update s.phase c .idle }

/-- What the worker may do. -/
inductive WorkerStep : State κ → State κ → Prop
  | take (s : State κ) (limits : Option BlobPackLimits) (hwaiting : s.worker = .waiting)
      (hpending : s.pending ≠ []) :
      WorkerStep s
        { s with
          pending := []
          worker := .blobs (blobTasks limits (blobsOf s.pending)) (resultsOf s.pending) }
  | upload (s : State κ) (before after : List BlobTask) (task : BlobTask) (next : List BlobTask)
      (results : List QueuedResult) (hworker : s.worker = .blobs (before ++ task :: after) results)
      (hnext : task.Next next) :
      WorkerStep s { s with worker := .blobs (before ++ next ++ after) results }
  | reportBlob (s : State κ) (before after : List BlobTask) (ticket : Ticket)
      (outcome : UploadOutcome) (results : List QueuedResult)
      (hworker : s.worker = .blobs (before ++ .report ticket outcome :: after) results) :
      WorkerStep s
        { s with
          outcome := report s.outcome ticket outcome
          worker := .blobs (before ++ after) results }
  | startResults (s : State κ) (results : List QueuedResult)
      (hworker : s.worker = .blobs [] results) :
      WorkerStep s
        { s with
          worker := .results (results.map fun queued => .awaiting queued queued.prerequisites) }
  | await (s : State κ) (before after : List ResultTask) (queued : QueuedResult)
      (ticket : Ticket) (remaining : List Ticket)
      (hworker : s.worker = .results (before ++ .awaiting queued (ticket :: remaining) :: after))
      (houtcome : s.outcome ticket = some .uploaded) :
      WorkerStep s
        { s with worker := .results (before ++ .awaiting queued remaining :: after) }
  /-- A prerequisite was not published, and the action result is skipped. -/
  | skip (s : State κ) (before after : List ResultTask) (queued : QueuedResult)
      (ticket : Ticket) (remaining : List Ticket) (outcome : UploadOutcome)
      (hworker : s.worker = .results (before ++ .awaiting queued (ticket :: remaining) :: after))
      (houtcome : s.outcome ticket = some outcome) (hpublished : outcome.published = false) :
      WorkerStep s
        { s with worker := .results (before ++ .report queued.ticket .skipped :: after) }
  | refuse (s : State κ) (before after : List ResultTask) (queued : QueuedResult)
      (hworker : s.worker = .results (before ++ .awaiting queued [] :: after)) :
      WorkerStep s
        { s with worker := .results (before ++ .report queued.ticket .failed :: after) }
  /-- The remote is called with the action result, with whatever outcome. -/
  | putActionResult (s : State κ) (before after : List ResultTask) (queued : QueuedResult)
      (ok : Bool) (hworker : s.worker = .results (before ++ .awaiting queued [] :: after)) :
      WorkerStep s
        { s with
          puts := queued :: s.puts
          worker := .results (before ++
            .report queued.ticket (if ok then .uploaded else .failed) :: after) }
  | reportResult (s : State κ) (before after : List ResultTask) (ticket : Ticket)
      (outcome : UploadOutcome)
      (hworker : s.worker = .results (before ++ .report ticket outcome :: after)) :
      WorkerStep s
        { s with
          outcome := report s.outcome ticket outcome
          worker := .results (before ++ after) }
  | finish (s : State κ) (hworker : s.worker = .results []) :
      WorkerStep s { s with worker := .waiting }

/-- One step of a connection or of the worker. -/
def Step (s t : State κ) : Prop := (∃ c, ConnectionStep c s t) ∨ WorkerStep s t

/-- Before anything is queued. -/
def State.Initial (s : State κ) : Prop :=
  s = { pending := [], blobTickets := ∅, lock := none, actionTickets := ∅, next := 0,
        outcome := fun _ => none, tickets := fun _ => [], phase := fun _ => .idle,
        worker := .waiting, puts := [] }

/-- The remote was called only for action results whose prerequisites were uploaded, and
the prerequisites of the action results that are being published have outcomes. -/
structure State.Ordered (s : State κ) : Prop where
  /-- Every prerequisite of an action result for which the remote was called was
  uploaded. -/
  puts : ∀ queued ∈ s.puts, ∀ ticket ∈ queued.prerequisites, s.outcome ticket = some .uploaded
  settled : ∀ tasks, s.worker = .results tasks → ∀ queued remaining,
    .awaiting queued remaining ∈ tasks →
      ∀ ticket ∈ queued.prerequisites, (s.outcome ticket).isSome

end Steps

end MrBoxington.Uploads
