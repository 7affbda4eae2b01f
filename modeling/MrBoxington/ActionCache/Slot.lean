import MrBoxington.Lib.LockFile

/-!
# Claiming, replacing and removing an action record

Writers publish an action result at the path of its record, and collectors remove
records whose objects are gone. Both claim the record first: they open it, lock
the inode, and check that the path still names it. An absent record is claimed
without any lock. Every file operation of a process is one step, so that steps of
other processes can fall between any two of them. What a process finds out about
the object store when it judges a record is an explicit reading.
-/

namespace MrBoxington.ActionCache

open LockFile (Disk)

/-- The result of publishing an action with first-writer semantics. -/
inductive ActionStoreOutcome where
  | stored
  | unchanged
  /-- An intact, restorable, different result was already present and was kept. -/
  | keptExisting
  deriving DecidableEq, Repr

/-- How one operation on a record ends. -/
inductive Outcome where
  | store (outcome : ActionStoreOutcome)
  | removed
  | missing
  | kept
  | blocked
  | failed (error : String)
  deriving DecidableEq, Repr

/-- Why a different intact record refuses a plain store. -/
def actionConflictMessage : String := "local action key already has a different result"

/-- The encoding of records: canonical bytes, and a strict parser of them. -/
structure Codec (Record Bytes : Type) where
  encode : Record → Bytes
  parseRecord : Bytes → Option Record

/-- What a process finds in the object store when it judges a record. -/
structure Senses where
  intact : Bool
  restorable : Bool
  dangling : Bool
  deriving DecidableEq, Repr

/-- The operation a process carries out. -/
inductive Job (Record : Type) where
  /-- Publish `result`, keeping a restorable existing record if asked to. -/
  | store (result : Record) (keepExisting : Bool)
  | collect

/-- Rounds of looking and claiming an operation may take. -/
def Job.rounds {Record : Type} : Job Record → ℕ
  | .store _ _ => 8
  | .collect => 1

/-- Attempts one claim may take. -/
def claimAttempts : ℕ := 64

/-- What a judgement of the record means for the operation. -/
inductive Verdict where
  | stop (outcome : Outcome)
  | proceed
  deriving DecidableEq

section Judging

variable {Record Bytes : Type} [DecidableEq Record]

/-- Whether an existing record decides a store without changing it. -/
def decideExisting (result existing : Record) (keepExisting : Bool) (senses : Senses) :
    Except String (Option ActionStoreOutcome) :=
  if existing = result then .ok (some .unchanged)
  else if senses.intact then
    if !keepExisting then .error actionConflictMessage
    else if senses.restorable then .ok (some .keptExisting)
    else .ok none
  else .ok none

/-- The verdict of an operation on the bytes it read, if there was a record. -/
def verdict (codec : Codec Record Bytes) (job : Job Record) (bytes : Option Bytes)
    (senses : Senses) : Verdict :=
  match job with
  | .store result keepExisting =>
    match bytes.bind codec.parseRecord with
    | none => .proceed
    | some existing =>
      match decideExisting result existing keepExisting senses with
      | .ok none => .proceed
      | .ok (some outcome) => .stop (.store outcome)
      | .error error => .stop (.failed error)
  | .collect =>
    match bytes with
    | none => .stop .missing
    | some _ => if senses.dangling then .proceed else .stop .kept

end Judging

/-- Where a process stands in its operation. Phases that hold a claim remember
the number of the next inode at the time of the claim. -/
inductive Phase where
  | idle
  | looking (rounds : ℕ)
  | opening (rounds attempts : ℕ)
  | waiting (rounds attempts inode : ℕ)
  | checking (rounds attempts inode : ℕ)
  /-- Holds a slot: an occupied one with its inode locked, or a vacant one. -/
  | claimed (rounds : ℕ) (slot : Option ℕ) (since : ℕ)
  | cleared (rounds : ℕ) (slot : Option ℕ) (since : ℕ) (senses : Senses)
  | closing (inode : ℕ) (outcome : Outcome)
  | finished (outcome : Outcome)

namespace Phase

/-- The inode open in a phase. -/
def handle : Phase → Option ℕ
  | waiting _ _ inode => some inode
  | checking _ _ inode => some inode
  | claimed _ slot _ => slot
  | cleared _ slot _ _ => slot
  | closing inode _ => some inode
  | _ => none

/-- The inode locked in a phase. -/
def locked : Phase → Option ℕ
  | checking _ _ inode => some inode
  | claimed _ slot _ => slot
  | cleared _ slot _ _ => slot
  | closing inode _ => some inode
  | _ => none

/-- The inode of the occupied slot held in a phase. -/
def slot : Phase → Option ℕ
  | claimed _ slot _ => slot
  | cleared _ slot _ _ => slot
  | _ => none

/-- The number of the next inode when the slot was claimed. -/
def since : Phase → ℕ
  | claimed _ _ since => since
  | cleared _ _ since _ => since
  | _ => 0

/-- Between operations. -/
def Resting : Phase → Prop
  | idle => True
  | finished _ => True
  | _ => False

end Phase

/-- The record's path and inodes, and the processes that work on it. -/
structure SlotState (π Record Bytes : Type) where
  disk : Disk π
  content : ℕ → Bytes
  job : π → Job Record
  phase : π → Phase

section Steps

variable {π Record Bytes : Type} [DecidableEq π] [DecidableEq Record]

/-- The state after process `p` moves to another phase. -/
def SlotState.enter (s : SlotState π Record Bytes) (p : π) (phase : Phase) :
    SlotState π Record Bytes :=
  { s with phase := Function.update s.phase p phase }

/-- The state after process `p` also worked on the disk. -/
def SlotState.move (s : SlotState π Record Bytes) (p : π) (disk : Disk π) (phase : Phase) :
    SlotState π Record Bytes :=
  { s with disk := disk, phase := Function.update s.phase p phase }

/-- The state after process `p` gave the path to a staged file. -/
def SlotState.install (s : SlotState π Record Bytes) (p : π) (bytes : Bytes) (phase : Phase) :
    SlotState π Record Bytes :=
  { s with
    disk := s.disk.relink
    content := Function.update s.content s.disk.next bytes
    phase := Function.update s.phase p phase }

/-- One step of process `p`. -/
inductive SlotStep (codec : Codec Record Bytes) (p : π) :
    SlotState π Record Bytes → SlotState π Record Bytes → Prop
  | start {s} (job : Job Record) (hrest : (s.phase p).Resting) :
      SlotStep codec p s
        { s with
          job := Function.update s.job p job
          phase := Function.update s.phase p (.looking job.rounds) }
  | lookStop {s rounds outcome} (senses : Senses) (hphase : s.phase p = .looking (rounds + 1))
      (hverdict : verdict codec (s.job p) (s.disk.path.map s.content) senses = .stop outcome) :
      SlotStep codec p s (s.enter p (.finished outcome))
  | lookProceed {s rounds} (senses : Senses) (hphase : s.phase p = .looking (rounds + 1))
      (hverdict : verdict codec (s.job p) (s.disk.path.map s.content) senses = .proceed) :
      SlotStep codec p s (s.enter p (.opening rounds claimAttempts))
  | lookExhausted {s} (hphase : s.phase p = .looking 0) :
      SlotStep codec p s
        (s.enter p (.finished (.failed "action record kept changing while publishing")))
  | openVacant {s rounds attempts} (hphase : s.phase p = .opening rounds (attempts + 1))
      (hpath : s.disk.path = none) :
      SlotStep codec p s (s.enter p (.claimed rounds none s.disk.next))
  | openOccupied {s rounds attempts inode} (hphase : s.phase p = .opening rounds (attempts + 1))
      (hpath : s.disk.path = some inode) :
      SlotStep codec p s (s.move p (s.disk.openAt p inode) (.waiting rounds attempts inode))
  | openExhausted {s rounds} (hphase : s.phase p = .opening rounds 0) :
      SlotStep codec p s
        (s.enter p (.finished (.failed "action record kept changing while claiming it")))
  | lock {s rounds attempts inode} (hphase : s.phase p = .waiting rounds attempts inode)
      (hfree : s.disk.holder inode = none) :
      SlotStep codec p s (s.move p (s.disk.lock p inode) (.checking rounds attempts inode))
  | wouldBlock {s rounds attempts inode} (hphase : s.phase p = .waiting rounds attempts inode)
      (hjob : s.job p = .collect) (hheld : s.disk.holder inode ≠ none) :
      SlotStep codec p s (s.move p (s.disk.close p) (.finished .blocked))
  | checkSame {s rounds attempts inode} (hphase : s.phase p = .checking rounds attempts inode)
      (hpath : s.disk.path = some inode) :
      SlotStep codec p s (s.enter p (.claimed rounds (some inode) s.disk.next))
  | checkChanged {s rounds attempts inode} (hphase : s.phase p = .checking rounds attempts inode)
      (hpath : s.disk.path ≠ some inode) :
      SlotStep codec p s (s.move p (s.disk.close p) (.opening rounds attempts))
  /-- The record read through the slot needs no change: drop the slot. -/
  | judgeStop {s rounds slot since outcome} (senses : Senses)
      (hphase : s.phase p = .claimed rounds slot since)
      (hverdict : verdict codec (s.job p) (slot.map s.content) senses = .stop outcome) :
      SlotStep codec p s (s.move p (s.disk.close p) (.finished outcome))
  | judgeProceed {s rounds slot since} (senses : Senses)
      (hphase : s.phase p = .claimed rounds slot since)
      (hverdict : verdict codec (s.job p) (slot.map s.content) senses = .proceed) :
      SlotStep codec p s (s.enter p (.cleared rounds slot since senses))
  | publish {s rounds since senses result keepExisting}
      (hphase : s.phase p = .cleared rounds none since senses)
      (hjob : s.job p = .store result keepExisting) (hpath : s.disk.path = none) :
      SlotStep codec p s (s.install p (codec.encode result) (.finished (.store .stored)))
  | publishTaken {s rounds since senses result keepExisting inode}
      (hphase : s.phase p = .cleared rounds none since senses)
      (hjob : s.job p = .store result keepExisting) (hpath : s.disk.path = some inode) :
      SlotStep codec p s (s.enter p (.looking rounds))
  | replace {s rounds inode since senses result keepExisting}
      (hphase : s.phase p = .cleared rounds (some inode) since senses)
      (hjob : s.job p = .store result keepExisting) :
      SlotStep codec p s (s.install p (codec.encode result) (.closing inode (.store .stored)))
  | remove {s rounds inode since senses}
      (hphase : s.phase p = .cleared rounds (some inode) since senses)
      (hjob : s.job p = .collect) :
      SlotStep codec p s
        (s.move p s.disk.unlink
          (.closing inode (if s.disk.path = none then .missing else .removed)))
  | close {s inode outcome} (hphase : s.phase p = .closing inode outcome) :
      SlotStep codec p s (s.move p (s.disk.close p) (.finished outcome))
  | abort {s} (error : String) :
      SlotStep codec p s (s.move p (s.disk.close p) (.finished (.failed error)))

/-- Some process takes a step. -/
def SlotStepAny (codec : Codec Record Bytes) (s t : SlotState π Record Bytes) : Prop :=
  ∃ p, SlotStep codec p s t

/-- No process has started, whatever record is there. -/
structure SlotState.Initial (s : SlotState π Record Bytes) : Prop where
  phase : ∀ p, s.phase p = .idle
  opened : s.disk.Unused
  holder : ∀ i, s.disk.holder i = none
  path : ∀ i, s.disk.path = some i → i < s.disk.next

end Steps

end MrBoxington.ActionCache
