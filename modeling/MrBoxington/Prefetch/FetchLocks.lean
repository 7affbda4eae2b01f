import MrBoxington.Lib.LockOrder
import MrBoxington.Lib.Runs
import MrBoxington.Uploads.Packs

/-!
# Locks and permits of downloads

A download of a pack takes the write locks of its digests one after another, then a permit of the
prefetch limit if it is a prefetch, then a permit for the transfer, and holds them to its end. A
download of one blob takes its lock and the same permits. A request for many blobs plans packs
and fetches alone what they did not bring. Packs are planned from digests in order, so that all
tasks acquire in one order and no set of tasks waits for each other.
-/

namespace MrBoxington.Prefetch

open Protocol (Digest)
open Uploads (BlobPackLimits planBlobPacks)

/-- What a download waits for. -/
inductive Resource where
  | writeLock (digest : Digest)
  | prefetchPermit
  | transferPermit
deriving DecidableEq

/-- The permits of the two semaphores. -/
structure Permits where
  prefetch : ℕ
  transfer : ℕ
  prefetch_pos : 0 < prefetch
  transfer_pos : 0 < transfer

/-- How many tasks may hold a resource. -/
def Permits.capacity (permits : Permits) : Resource → ℕ
  | .writeLock _ => 1
  | .prefetchPermit => permits.prefetch
  | .transferPermit => permits.transfer

/-! ## One download -/

/-- Where a download is. -/
inductive Phase where
  | locking (remaining : List Digest)
  | awaitingPrefetch
  | awaitingTransfer
  | transferring
  | returned (verified : List Digest)

/-- A download of a pack or of one blob. -/
structure Fetch where
  isPack : Bool
  prefetchLimit : Bool
  guards : List Digest := []
  prefetchPermit : Bool := false
  transferPermit : Bool := false
  phase : Phase

def fetchRemoteBlobPack (candidates : List Digest) (prefetchLimit : Bool) : Fetch :=
  { isPack := true, prefetchLimit, phase := .locking candidates }

def fetchRemoteBlobWithLimit (digest : Digest) (prefetchLimit : Bool) : Fetch :=
  { isPack := false, prefetchLimit, phase := .locking [digest] }

def Fetch.holds (fetch : Fetch) : List Resource :=
  fetch.guards.map .writeLock ++ (if fetch.prefetchPermit then [.prefetchPermit] else []) ++
    if fetch.transferPermit then [.transferPermit] else []

def Fetch.waits (fetch : Fetch) : Option Resource :=
  match fetch.phase with
  | .locking (digest :: _) => some (.writeLock digest)
  | .awaitingPrefetch => some .prefetchPermit
  | .awaitingTransfer => some .transferPermit
  | _ => none

/-- The download returns, and drops what it holds. -/
def Fetch.finish (fetch : Fetch) (verified : List Digest) : Fetch :=
  { fetch with guards := [], prefetchPermit := false, transferPermit := false
               phase := .returned verified }

/-- What a download does next, given what is free. -/
inductive Fetch.Step (free : Resource → Prop) : Fetch → Fetch → Prop
  /-- The lock is taken and the blob is missing. A pack also goes on if the lookup fails. -/
  | missing {fetch : Fetch} {digest : Digest} {rest : List Digest}
      (hphase : fetch.phase = .locking (digest :: rest)) (hfree : free (.writeLock digest)) :
      Step free fetch { fetch with guards := fetch.guards ++ [digest], phase := .locking rest }
  /-- The blob was stored by another task: a pack drops the lock and goes on. -/
  | stored {fetch : Fetch} {digest : Digest} {rest : List Digest}
      (hphase : fetch.phase = .locking (digest :: rest)) (hfree : free (.writeLock digest)) :
      Step free fetch
        (if fetch.isPack then { fetch with phase := .locking rest } else fetch.finish [digest])
  | lookupFailed {fetch : Fetch} {digest : Digest} {rest : List Digest}
      (hphase : fetch.phase = .locking (digest :: rest)) (hfree : free (.writeLock digest))
      (hsingle : fetch.isPack = false) : Step free fetch (fetch.finish [])
  | locked {fetch : Fetch} (hphase : fetch.phase = .locking []) (hguards : fetch.guards ≠ []) :
      Step free fetch { fetch with
        phase := if fetch.prefetchLimit then .awaitingPrefetch else .awaitingTransfer }
  /-- Nothing is left to request, or a pack gets no room for its bytes. -/
  | skipped {fetch : Fetch} (hphase : fetch.phase = .locking []) (hpack : fetch.isPack = true) :
      Step free fetch (fetch.finish [])
  | prefetching {fetch : Fetch} (hphase : fetch.phase = .awaitingPrefetch)
      (hfree : free .prefetchPermit) :
      Step free fetch { fetch with prefetchPermit := true, phase := .awaitingTransfer }
  | transferring {fetch : Fetch} (hphase : fetch.phase = .awaitingTransfer)
      (hfree : free .transferPermit) :
      Step free fetch { fetch with transferPermit := true, phase := .transferring }
  | closed {fetch : Fetch}
      (hphase : fetch.phase = .awaitingPrefetch ∨ fetch.phase = .awaitingTransfer) :
      Step free fetch (fetch.finish [])
  /-- A packed blob is stored, and its lock is dropped before the pack returns. -/
  | ingested {fetch : Fetch} {digest : Digest} (hphase : fetch.phase = .transferring)
      (hpack : fetch.isPack = true) (hguard : digest ∈ fetch.guards) :
      Step free fetch { fetch with guards := fetch.guards.erase digest }
  | finished {fetch : Fetch} (hphase : fetch.phase = .transferring) (verified : List Digest) :
      Step free fetch (fetch.finish verified)

/-! ## Requests for many blobs -/

/-- Where a request for many blobs is; it waits for its downloads, by index. -/
inductive Blobs where
  | starting (digests : List Digest)
  | packs (queued : List (List Digest)) (active : List ℕ) (missing : List Digest)
  | singles (queued : List Digest) (active : List ℕ)
  | returned

inductive Task where
  | fetch (fetch : Fetch)
  | fetchRemoteBlobs (prefetchLimit : Bool) (blobs : Blobs)

def Task.holds : Task → List Resource
  | .fetch download => download.holds
  | .fetchRemoteBlobs _ _ => []

def Task.waits : Task → Option Resource
  | .fetch download => download.waits
  | .fetchRemoteBlobs _ _ => none

/-- A task may still take the resource. -/
def Free (permits : Permits) (tasks : List Task) (resource : Resource) : Prop :=
  tasks.countP (fun task => decide (resource ∈ task.holds)) < permits.capacity resource

instance (permits : Permits) (tasks : List Task) (resource : Resource) :
    Decidable (Free permits tasks resource) := inferInstanceAs (Decidable (_ < _))

/-- The order of the digests in a map. -/
def Sorted (digests : List Digest) : Prop := digests.Pairwise (compare · · = .lt)

def maxConcurrentBlobPacks : ℕ := 8

def maxPrefetchTransfers : ℕ := 48

/-- Some task goes on, or a new one begins. -/
inductive Step (permits : Permits) : List Task → List Task → Prop
  | request (tasks : List Task) (digests : List Digest) (limit : Bool) :
      Step permits tasks (tasks ++ [.fetchRemoteBlobs limit (.starting digests)])
  | requestOne (tasks : List Task) (digest : Digest) (limit : Bool) :
      Step permits tasks (tasks ++ [.fetch (fetchRemoteBlobWithLimit digest limit)])
  | fetch {tasks : List Task} {i : ℕ} {fetch fetch' : Fetch}
      (htask : tasks[i]? = some (.fetch fetch))
      (hstep : Fetch.Step (Free permits tasks) fetch fetch') :
      Step permits tasks (tasks.set i (.fetch fetch'))
  /-- The missing digests are found, and packs are planned if the server takes packs. -/
  | plan {tasks : List Task} {i : ℕ} {limit : Bool} {digests missing : List Digest}
      (htask : tasks[i]? = some (.fetchRemoteBlobs limit (.starting digests)))
      (hmissing : missing ⊆ digests) (hsorted : Sorted missing)
      (limits : Option BlobPackLimits) :
      Step permits tasks (tasks.set i (.fetchRemoteBlobs limit
        (if missing = [] then .returned
          else .packs ((limits.map (planBlobPacks missing)).getD []) [] missing)))
  | startPack {tasks : List Task} {i : ℕ} {limit : Bool} {pack missing : List Digest}
      {queued : List (List Digest)} {active : List ℕ}
      (htask : tasks[i]? = some (.fetchRemoteBlobs limit (.packs (pack :: queued) active missing)))
      (hroom : active.length < maxConcurrentBlobPacks) :
      Step permits tasks
        (tasks.set i (.fetchRemoteBlobs limit (.packs queued (tasks.length :: active) missing)) ++
          [.fetch (fetchRemoteBlobPack pack limit)])
  | packReturned {tasks : List Task} {i j : ℕ} {limit : Bool} {missing verified : List Digest}
      {queued : List (List Digest)} {active : List ℕ} {fetch : Fetch}
      (htask : tasks[i]? = some (.fetchRemoteBlobs limit (.packs queued active missing)))
      (hactive : j ∈ active) (hpack : tasks[j]? = some (.fetch fetch))
      (hreturned : fetch.phase = .returned verified) :
      Step permits tasks (tasks.set i (.fetchRemoteBlobs limit
        (.packs queued (active.erase j) (missing.filter (· ∉ verified)))))
  | packsReturned {tasks : List Task} {i : ℕ} {limit : Bool} {missing : List Digest}
      (htask : tasks[i]? = some (.fetchRemoteBlobs limit (.packs [] [] missing))) :
      Step permits tasks (tasks.set i (.fetchRemoteBlobs limit (.singles missing [])))
  | startSingle {tasks : List Task} {i : ℕ} {limit : Bool} {digest : Digest}
      {queued : List Digest} {active : List ℕ}
      (htask : tasks[i]? = some (.fetchRemoteBlobs limit (.singles (digest :: queued) active)))
      (hroom : active.length < maxPrefetchTransfers) :
      Step permits tasks
        (tasks.set i (.fetchRemoteBlobs limit (.singles queued (tasks.length :: active))) ++
          [.fetch (fetchRemoteBlobWithLimit digest limit)])
  | singleReturned {tasks : List Task} {i j : ℕ} {limit : Bool} {queued verified : List Digest}
      {active : List ℕ} {fetch : Fetch}
      (htask : tasks[i]? = some (.fetchRemoteBlobs limit (.singles queued active)))
      (hactive : j ∈ active) (hsingle : tasks[j]? = some (.fetch fetch))
      (hreturned : fetch.phase = .returned verified) :
      Step permits tasks
        (tasks.set i (.fetchRemoteBlobs limit (.singles queued (active.erase j))))
  | singlesReturned {tasks : List Task} {i : ℕ} {limit : Bool}
      (htask : tasks[i]? = some (.fetchRemoteBlobs limit (.singles [] []))) :
      Step permits tasks (tasks.set i (.fetchRemoteBlobs limit .returned))

/-! ## The order -/

/-- Locks come before the permit of the prefetch limit, and that before the one of the transfer;
locks come in the order of their digests. -/
def Resource.before : Resource → Resource → Prop
  | .writeLock digest, .writeLock other => compare digest other = .lt
  | .writeLock _, .prefetchPermit => True
  | .writeLock _, .transferPermit => True
  | .prefetchPermit, .transferPermit => True
  | _, _ => False

private theorem Resource.before_trans (a b c : Resource) (hab : a.before b) (hbc : b.before c) :
    a.before c := by
  cases a <;> cases b <;> cases c <;>
    first | exact Std.TransCmp.lt_trans hab hbc | trivial

private theorem Resource.not_before_self (a : Resource) : ¬ a.before a := by
  cases a with
  | writeLock digest =>
    intro hself
    exact absurd (hself.symm.trans Std.ReflCmp.compare_self) (by decide)
  | prefetchPermit => exact id
  | transferPermit => exact id

/-- What a download holds in its phase comes before what it waits for. -/
def Fetch.Ordered (fetch : Fetch) : Prop :=
  match fetch.phase with
  | .locking remaining => Sorted (fetch.guards ++ remaining) ∧ fetch.prefetchPermit = false ∧
      fetch.transferPermit = false
  | .awaitingPrefetch => fetch.prefetchPermit = false ∧ fetch.transferPermit = false
  | .awaitingTransfer => fetch.transferPermit = false
  | .transferring => True
  | .returned _ => True

/-- The packs that a request still has to start are in order. -/
def Task.Ordered : Task → Prop
  | .fetch download => download.Ordered
  | .fetchRemoteBlobs _ (.packs queued _ _) => ∀ pack ∈ queued, Sorted pack
  | .fetchRemoteBlobs _ _ => True

private theorem Fetch.Ordered.before {fetch : Fetch} (hordered : fetch.Ordered)
    {held wanted : Resource}
    (hheld : held ∈ fetch.holds) (hwaits : fetch.waits = some wanted) : held.before wanted := by
  simp only [Fetch.holds, List.mem_append, List.mem_map] at hheld
  unfold Fetch.Ordered at hordered
  unfold Fetch.waits at hwaits
  split at hwaits
  · rename_i digest rest hphase
    cases hwaits
    rw [hphase] at hordered
    obtain ⟨hsorted, hprefetch, htransfer⟩ := hordered
    simp only [hprefetch, htransfer, Bool.false_eq_true, if_false, List.not_mem_nil,
      or_false] at hheld
    obtain ⟨guard, hguard, rfl⟩ := hheld
    exact (List.pairwise_append.mp hsorted).2.2 guard hguard digest List.mem_cons_self
  · rename_i hphase
    cases hwaits
    rw [hphase] at hordered
    simp only [hordered.1, hordered.2, Bool.false_eq_true, if_false, List.not_mem_nil,
      or_false] at hheld
    obtain ⟨guard, -, rfl⟩ := hheld
    trivial
  · rename_i hphase
    cases hwaits
    rw [hphase] at hordered
    simp only [show fetch.transferPermit = false from hordered, Bool.false_eq_true, if_false,
      List.not_mem_nil, or_false] at hheld
    obtain ⟨guard, -, rfl⟩ | hheld := hheld
    · trivial
    · split at hheld
      · obtain rfl := List.mem_singleton.mp hheld
        trivial
      · cases hheld
  · cases hwaits

private theorem Fetch.Ordered.step {fetch fetch' : Fetch} {free : Resource → Prop}
    (hordered : fetch.Ordered) (hstep : Fetch.Step free fetch fetch') : fetch'.Ordered := by
  cases hstep with
  | missing hphase _ =>
    rw [Fetch.Ordered, hphase] at hordered
    rw [Fetch.Ordered]
    simpa using hordered
  | @stored digest rest hphase _ =>
    rw [Fetch.Ordered, hphase] at hordered
    split
    · have hsub : (fetch.guards ++ rest).Sublist (fetch.guards ++ digest :: rest) :=
        (List.sublist_cons_self digest rest).append_left fetch.guards
      exact ⟨hordered.1.sublist hsub, hordered.2⟩
    · trivial
  | locked hphase _ =>
    rw [Fetch.Ordered, hphase] at hordered
    rw [Fetch.Ordered]
    cases fetch.prefetchLimit with
    | true => exact hordered.2
    | false => exact hordered.2.2
  | prefetching hphase _ =>
    rw [Fetch.Ordered, hphase] at hordered
    exact hordered.2
  | transferring _ _ => trivial
  | ingested hphase _ _ =>
    rw [Fetch.Ordered, hphase]
    trivial
  | lookupFailed _ _ _ => trivial
  | skipped _ _ => trivial
  | closed _ => trivial
  | finished _ _ => trivial

private theorem ordered_pack {pack : List Digest} (hsorted : Sorted pack) (limit : Bool) :
    (fetchRemoteBlobPack pack limit).Ordered :=
  ⟨hsorted, rfl, rfl⟩

private theorem ordered_single (digest : Digest) (limit : Bool) :
    (fetchRemoteBlobWithLimit digest limit).Ordered :=
  ⟨List.pairwise_singleton _ _, rfl, rfl⟩

variable {permits : Permits} {tasks tasks' : List Task}

private theorem ordered_set {task : Task} {i : ℕ} (hordered : ∀ task ∈ tasks, task.Ordered)
    (htask : task.Ordered) : ∀ other ∈ tasks.set i task, other.Ordered := fun other hmem =>
  (List.mem_or_eq_of_mem_set hmem).elim (hordered other) fun heq => heq ▸ htask

private theorem ordered_concat {task : Task} (hordered : ∀ task ∈ tasks, task.Ordered)
    (htask : task.Ordered) : ∀ other ∈ tasks ++ [task], other.Ordered := fun other hmem =>
  (List.mem_append.mp hmem).elim (hordered other) fun hnew => List.mem_singleton.mp hnew ▸ htask

/-- Packs that are planned from digests in order are in order. -/
theorem sorted_planned {missing : List Digest} (hsorted : Sorted missing)
    (limits : Option BlobPackLimits) :
    ∀ pack ∈ (limits.map (planBlobPacks missing)).getD [], Sorted pack := by
  cases limits with
  | none => simp
  | some limits =>
    exact fun pack hmem => hsorted.sublist (Uploads.planBlobPacks_sublist missing limits pack hmem)

private theorem ordered_step (hordered : ∀ task ∈ tasks, task.Ordered)
    (hstep : Step permits tasks tasks') :
    ∀ task ∈ tasks', task.Ordered := by
  cases hstep with
  | request digests limit => exact ordered_concat hordered trivial
  | requestOne digest limit => exact ordered_concat hordered (ordered_single digest limit)
  | fetch htask hfetch =>
    have hbefore : Fetch.Ordered _ := hordered _ (List.mem_of_getElem? htask)
    exact ordered_set hordered (hbefore.step hfetch)
  | plan htask _ hsorted limits =>
    refine ordered_set hordered ?_
    split
    · trivial
    · exact sorted_planned hsorted limits
  | startPack htask _ =>
    obtain ⟨hpack, hqueued⟩ := List.forall_mem_cons.mp (hordered _ (List.mem_of_getElem? htask))
    exact ordered_concat (ordered_set hordered hqueued) (ordered_pack hpack _)
  | packReturned htask _ _ _ =>
    have hqueued := hordered _ (List.mem_of_getElem? htask)
    exact ordered_set hordered hqueued
  | packsReturned _ => exact ordered_set hordered trivial
  | startSingle _ _ => exact ordered_concat (ordered_set hordered trivial) (ordered_single _ _)
  | singleReturned _ _ _ _ => exact ordered_set hordered trivial
  | singlesReturned _ => exact ordered_set hordered trivial

/-- What the task with an index holds and waits for. -/
def holdsAt (tasks : List Task) (i : ℕ) : List Resource := (tasks[i]?.map Task.holds).getD []

def waitsAt (tasks : List Task) (i : ℕ) : Option Resource := tasks[i]?.bind Task.waits

private theorem orderedWaits_of_ordered (hordered : ∀ task ∈ tasks, task.Ordered) :
    LockOrder.OrderedWaits Resource.before (fun i resource => resource ∈ holdsAt tasks i)
      (waitsAt tasks) := by
  intro i held wanted hheld hwaits
  obtain ⟨task, htask, hwaits⟩ := Option.bind_eq_some_iff.mp hwaits
  simp only [holdsAt, htask, Option.map_some, Option.getD_some] at hheld
  cases task with
  | fetch fetch => exact (hordered _ (List.mem_of_getElem? htask)).before hheld hwaits
  | fetchRemoteBlobs limit blobs => cases hwaits

/-- However the downloads interleave, no set of them waits for locks and permits that others of
the set hold. -/
theorem no_circular_wait (permits : Permits) (tasks : List Task)
    (hreach : Runs.Reachable (· = []) (Step permits) tasks) :
    ¬ ∃ waiting : Set ℕ, waiting.Nonempty ∧
      ∀ i ∈ waiting, ∃ resource, waitsAt tasks i = some resource ∧
        ∃ j ∈ waiting, j ≠ i ∧ resource ∈ holdsAt tasks j := by
  rintro ⟨waiting, hdeadlocked⟩
  have hordered : ∀ task ∈ tasks, task.Ordered :=
    hreach.invariant (by rintro _ rfl; simp) fun _ _ => ordered_step
  have hfinite : waiting.Finite := by
    refine (Set.finite_lt_nat tasks.length).subset fun i hi => ?_
    obtain ⟨resource, hwaits, -⟩ := hdeadlocked.2 i hi
    obtain ⟨task, htask, -⟩ := Option.bind_eq_some_iff.mp hwaits
    exact (List.getElem?_eq_some_iff.mp htask).1
  exact LockOrder.not_deadlocked Resource.before_trans Resource.not_before_self
    (orderedWaits_of_ordered hordered) hfinite hdeadlocked

def contendedDigest : Digest := ⟨"blake3", "a", 1⟩

/-- A download waits for a lock that another holds while it waits for a permit. -/
def contendedTasks : List Task :=
  [.fetch { isPack := false, prefetchLimit := true, guards := [contendedDigest]
            phase := .awaitingPrefetch },
   .fetch (fetchRemoteBlobWithLimit contendedDigest false)]

theorem no_circular_wait_contended :
    waitsAt contendedTasks 1 = some (.writeLock contendedDigest) ∧
      .writeLock contendedDigest ∈ holdsAt contendedTasks 0 ∧
      ¬ ∃ waiting : Set ℕ, waiting.Nonempty ∧
        ∀ i ∈ waiting, ∃ resource, waitsAt contendedTasks i = some resource ∧
          ∃ j ∈ waiting, j ≠ i ∧ resource ∈ holdsAt contendedTasks j := by
  let permits : Permits := ⟨1, 1, by decide, by decide⟩
  have hstart : Runs.Reachable (· = []) (Step permits) [] := Runs.Reachable.start rfl
  have hlock := (hstart.next (.requestOne [] contendedDigest true)).next
    (.fetch (i := 0) rfl (.missing rfl (by decide +kernel)))
  have hpermit := hlock.next (.fetch (i := 0) rfl (.locked rfl (List.cons_ne_nil _ _)))
  have hcontended := hpermit.next (.requestOne _ contendedDigest false)
  exact ⟨rfl, by decide +kernel, no_circular_wait permits contendedTasks hcontended⟩

end MrBoxington.Prefetch
