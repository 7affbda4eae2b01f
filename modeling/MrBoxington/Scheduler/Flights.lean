import MrBoxington.Lib.LockFile

/-!
# Flights

A flight is the lock of one invocation. A process about to compile opens the lock
file, tries its lock and otherwise polls for it, reads under the lock what the
previous holder left, and writes an attempt of its own. It keeps the lock until it
drops or releases the flight, and may leave a prediction even after that. A sweep
removes the files of a flight that is stale: it takes the lock, removes the record
and the attempt, closes the lock, and then unlinks the lock file. Every file
operation is one step.
-/

namespace MrBoxington.Scheduler

open LockFile (Disk)

/-- What one finished compilation leaves for whoever comes next. -/
structure FlightRecord where
  version : ℕ
  adapter : String
  invocation : String
  payload : String
  attempt : Option String
deriving DecidableEq

/-- The only version of flight records. -/
def flightVersion : ℕ := 1

/-- The size in bytes of the largest prediction left behind. -/
def maxFlightPayload : ℕ := 4 * 1024 * 1024

/-- How records are written to and read from files. -/
structure FlightCodec (Bytes : Type) where
  encode : FlightRecord → Bytes
  parse : Bytes → Option FlightRecord

/-- Occupancy of one invocation. -/
structure Flight where
  lock : Option ℕ
  waited : Bool
  inherited : Option String
  publishedWhileWaiting : Bool
  attempt : String

/-- The flight without its lock. -/
def Flight.release (flight : Flight) : Flight := { flight with lock := none }

/-- The adapter and invocation that a flight is for. -/
structure FlightKey where
  adapter : String
  invocation : String

/-- The record of a flight's file, if it describes this invocation. -/
def FlightKey.record {Bytes : Type} (key : FlightKey) (codec : FlightCodec Bytes)
    (file : Option Bytes) : Option FlightRecord :=
  (file.bind codec.parse).filter fun record =>
    record.version = flightVersion ∧ record.adapter = key.adapter ∧
      record.invocation = key.invocation

/-- Whether the attempt that the last holder established is the one that left the
record. -/
def publishedWhileWaiting (waited : Bool) (previousAttempt : Option String)
    (record : Option FlightRecord) : Bool :=
  waited && previousAttempt.any fun attempt =>
    record.bind FlightRecord.attempt = some attempt

/-- What a flight leaves. -/
def Flight.leftRecord (flight : Flight) (key : FlightKey) (payload : String) : FlightRecord where
  version := flightVersion
  adapter := key.adapter
  invocation := key.invocation
  payload := payload
  attempt := some flight.attempt

/-- Where a process stands. -/
inductive FlightPhase where
  | idle
  | opening
  | arriving (inode : ℕ)
  | polling (inode : ℕ)
  | entered (inode : ℕ) (waited : Bool)
  | inspecting (inode : ℕ) (waited : Bool) (previousAttempt : Option String)
  | establishing (inode : ℕ) (waited : Bool) (published : Bool) (inherited : Option String)
  | flying (flight : Flight)
  | sweeping
  | trying (inode : ℕ)
  | clearing (inode : ℕ)
  | clearingAttempt (inode : ℕ)
  | closing (inode : ℕ)
  | unlinking
  /-- Sweep: found a stale record without a lock file, about to remove it. -/
  | discardingRecord
  /-- Sweep: found a stale attempt without a lock file, about to remove it. -/
  | discardingAttempt

namespace FlightPhase

/-- The inode of the lock file open in a phase. -/
def handle : FlightPhase → Option ℕ
  | arriving inode => some inode
  | polling inode => some inode
  | entered inode _ => some inode
  | inspecting inode _ _ => some inode
  | establishing inode _ _ _ => some inode
  | flying flight => flight.lock
  | trying inode => some inode
  | clearing inode => some inode
  | clearingAttempt inode => some inode
  | closing inode => some inode
  | _ => none

/-- The inode locked in a phase. -/
def locked : FlightPhase → Option ℕ
  | entered inode _ => some inode
  | inspecting inode _ _ => some inode
  | establishing inode _ _ _ => some inode
  | flying flight => flight.lock
  | clearing inode => some inode
  | clearingAttempt inode => some inode
  | closing inode => some inode
  | _ => none

/-- Has a flight whose lock is held. -/
def Holds : FlightPhase → Prop
  | flying flight => flight.lock.isSome
  | _ => False

end FlightPhase

/-- The files of one flight, and the processes that use them. -/
structure FlightState (π Bytes : Type) where
  disk : Disk π
  stale : ℕ → Bool
  record : Option Bytes
  recordStale : Bool
  attempt : Option String
  attemptStale : Bool
  phase : π → FlightPhase

namespace FlightState

variable {π Bytes : Type} [DecidableEq π]

/-- The state after process `p` moves to another phase. -/
def enter (s : FlightState π Bytes) (p : π) (phase : FlightPhase) : FlightState π Bytes :=
  { s with phase := Function.update s.phase p phase }

/-- The state after process `p` also worked on the lock file. -/
def move (s : FlightState π Bytes) (p : π) (disk : Disk π) (phase : FlightPhase) :
    FlightState π Bytes :=
  { s with disk := disk, phase := Function.update s.phase p phase }

/-- The state after process `p` created the lock file. -/
def create (s : FlightState π Bytes) (p : π) (phase : FlightPhase) : FlightState π Bytes :=
  { s with
    disk := s.disk.create p
    stale := Function.update s.stale s.disk.next false
    phase := Function.update s.phase p phase }

/-- The state after process `p` unlocked an inode, which truncates it. -/
def unlock (s : FlightState π Bytes) (p : π) (inode : ℕ) (phase : FlightPhase) :
    FlightState π Bytes :=
  { s with
    disk := s.disk.close p
    stale := Function.update s.stale inode false
    phase := Function.update s.phase p phase }

/-- The state after process `p` wrote the record. -/
def leave (s : FlightState π Bytes) (p : π) (record : Bytes) (phase : FlightPhase) :
    FlightState π Bytes :=
  { s with
    record := some record
    recordStale := false
    phase := Function.update s.phase p phase }

/-- The state after process `p` wrote the attempt. -/
def establish (s : FlightState π Bytes) (p : π) (attempt : String) (phase : FlightPhase) :
    FlightState π Bytes :=
  { s with
    attempt := some attempt
    attemptStale := false
    phase := Function.update s.phase p phase }

/-- The state after process `p` removed the record. -/
def removeRecord (s : FlightState π Bytes) (p : π) (phase : FlightPhase) : FlightState π Bytes :=
  { s with record := none, phase := Function.update s.phase p phase }

/-- The state after process `p` removed the attempt. -/
def removeAttempt (s : FlightState π Bytes) (p : π) (phase : FlightPhase) :
    FlightState π Bytes :=
  { s with attempt := none, phase := Function.update s.phase p phase }

end FlightState

section Steps

variable {π Bytes : Type} [DecidableEq π] (codec : FlightCodec Bytes) (key : FlightKey)

/-- One step of process `p`. -/
inductive FlightStep (p : π) : FlightState π Bytes → FlightState π Bytes → Prop
  | start {s} (hphase : s.phase p = .idle) : FlightStep p s (s.enter p .opening)
  | openLock {s inode} (hphase : s.phase p = .opening) (hpath : s.disk.path = some inode) :
      FlightStep p s (s.move p (s.disk.openAt p inode) (.arriving inode))
  | createLock {s} (hphase : s.phase p = .opening) (hpath : s.disk.path = none) :
      FlightStep p s (s.create p (.arriving s.disk.next))
  | tryLock {s inode} (hphase : s.phase p = .arriving inode)
      (hfree : s.disk.holder inode = none) :
      FlightStep p s (s.move p (s.disk.lock p inode) (.entered inode false))
  | wait {s inode} (hphase : s.phase p = .arriving inode)
      (hheld : s.disk.holder inode ≠ none) : FlightStep p s (s.enter p (.polling inode))
  | poll {s inode} (hphase : s.phase p = .polling inode) (hfree : s.disk.holder inode = none) :
      FlightStep p s (s.move p (s.disk.lock p inode) (.entered inode true))
  | giveUp {s inode} (hphase : s.phase p = .polling inode) :
      FlightStep p s (s.move p (s.disk.close p) .idle)
  | readAttempt {s inode waited} (hphase : s.phase p = .entered inode waited) :
      FlightStep p s (s.enter p (.inspecting inode waited s.attempt))
  | readRecord {s inode waited previousAttempt}
      (hphase : s.phase p = .inspecting inode waited previousAttempt) :
      FlightStep p s (s.enter p (.establishing inode waited
        (publishedWhileWaiting waited previousAttempt (key.record codec s.record))
        ((key.record codec s.record).map FlightRecord.payload)))
  | establish {s inode waited published inherited} (attempt : String)
      (hphase : s.phase p = .establishing inode waited published inherited) :
      FlightStep p s (s.establish p attempt
        (.flying ⟨some inode, waited, inherited, published, attempt⟩))
  | leave {s flight} (payload : String) (hphase : s.phase p = .flying flight)
      (hsize : payload.utf8ByteSize ≤ maxFlightPayload) :
      FlightStep p s (s.leave p (codec.encode (flight.leftRecord key payload)) (.flying flight))
  | release {s flight inode} (hphase : s.phase p = .flying flight)
      (hlock : flight.lock = some inode) :
      FlightStep p s (s.unlock p inode (.flying flight.release))
  | drop {s flight inode} (hphase : s.phase p = .flying flight)
      (hlock : flight.lock = some inode) : FlightStep p s (s.unlock p inode .idle)
  | dropReleased {s flight} (hphase : s.phase p = .flying flight)
      (hlock : flight.lock = none) : FlightStep p s (s.enter p .idle)
  | findStale {s inode} (hphase : s.phase p = .idle) (hpath : s.disk.path = some inode)
      (hstale : s.stale inode) (hrecord : s.record.isSome → s.recordStale) :
      FlightStep p s (s.enter p .sweeping)
  | sweepOpen {s inode} (hphase : s.phase p = .sweeping) (hpath : s.disk.path = some inode) :
      FlightStep p s (s.move p (s.disk.openAt p inode) (.trying inode))
  | sweepCreate {s} (hphase : s.phase p = .sweeping) (hpath : s.disk.path = none) :
      FlightStep p s (s.create p (.trying s.disk.next))
  | claim {s inode} (hphase : s.phase p = .trying inode) (hfree : s.disk.holder inode = none) :
      FlightStep p s (s.move p (s.disk.lock p inode) (.clearing inode))
  | skip {s inode} (hphase : s.phase p = .trying inode)
      (hheld : s.disk.holder inode ≠ none) : FlightStep p s (s.move p (s.disk.close p) .idle)
  | clearRecord {s inode} (hphase : s.phase p = .clearing inode) :
      FlightStep p s (s.removeRecord p (.clearingAttempt inode))
  | clearAttempt {s inode} (hphase : s.phase p = .clearingAttempt inode) :
      FlightStep p s (s.removeAttempt p (.closing inode))
  | close {s inode} (hphase : s.phase p = .closing inode) :
      FlightStep p s (s.unlock p inode .unlinking)
  | unlink {s} (hphase : s.phase p = .unlinking) :
      FlightStep p s (s.move p s.disk.unlink .idle)
  | findRecord {s} (hphase : s.phase p = .idle) (hrecord : s.record.isSome)
      (hstale : s.recordStale) (hpath : s.disk.path = none) :
      FlightStep p s (s.enter p .discardingRecord)
  | discardRecord {s} (hphase : s.phase p = .discardingRecord) :
      FlightStep p s (s.removeRecord p .idle)
  | findAttempt {s} (hphase : s.phase p = .idle) (hattempt : s.attempt.isSome)
      (hstale : s.attemptStale) (hpath : s.disk.path = none) :
      FlightStep p s (s.enter p .discardingAttempt)
  | discardAttempt {s} (hphase : s.phase p = .discardingAttempt) :
      FlightStep p s (s.removeAttempt p .idle)
  | abort {s} : FlightStep p s (s.move p (s.disk.close p) .idle)
  | age {s} (locks : ℕ → Bool) (record attempt : Bool) :
      FlightStep p s { s with
        stale := fun inode => s.stale inode || locks inode
        recordStale := s.recordStale || record
        attemptStale := s.attemptStale || attempt }

/-- Some process takes a step. -/
def FlightStepAny (s t : FlightState π Bytes) : Prop := ∃ p, FlightStep codec key p s t

/-- Some process takes a step that does not unlink the lock file while a process
has it open. -/
def QuietFlightStep (s t : FlightState π Bytes) : Prop :=
  ∃ p, FlightStep codec key p s t ∧ LockFile.Quiet s.disk t.disk

end Steps

/-- Nobody has started, whatever files are there. -/
structure FlightState.Initial {π Bytes : Type} (s : FlightState π Bytes) : Prop where
  phase : ∀ p, s.phase p = .idle
  opened : s.disk.Unused
  holder : ∀ i, s.disk.holder i = none
  path : ∀ i, s.disk.path = some i → i < s.disk.next

end MrBoxington.Scheduler
