import MrBoxington.Lib.Strings
import MrBoxington.Protocol.Manifest
import MrBoxington.Store.Collect

/-!
# A sweep

A sweep collects a store and keeps house beside it. It first drops the records of
checkouts that are gone, then the task manifests that no checkout claims, and last the
event streams of old sessions. What the claimed manifests predict is protected. A dry
run counts what a sweep would remove.
-/

namespace MrBoxington.Store

open Protocol (Bytes Digest RecordJson TaskActionManifest validTaskIdentity)

/-! ## Removing files -/

/-- How many files were removed. -/
structure RemovedFiles where
  count : ℕ
  bytes : ℕ
deriving DecidableEq

/-- Remove a file, or in a dry run only count it. -/
def removeCounted (held : Path → Bool) (dryRun : Bool) (state : RemovedFiles × FileTree)
    (file : StoredFile) : RemovedFiles × FileTree :=
  if dryRun then (⟨state.1.count + 1, state.1.bytes + file.size⟩, state.2)
  else
    match remove held state.2 file.path with
    | (.removed, tree) => (⟨state.1.count + 1, state.1.bytes + file.size⟩, tree)
    | (_, tree) => (state.1, tree)

/-! ## Checkouts -/

/-- A checkout that uses a store. -/
structure CheckoutRecord where
  version : ℕ
  workspaceRoot : String
  updatedSecs : ℕ

/-- What a sweep finds around the store. Times are in nanoseconds. -/
structure Surroundings where
  now : ℤ
  checkoutIsLiveOn : String → Bool
  lockHeld : String → Bool
  sessionIsLive : String → Bool

/-- How the JSON library reads the records of a sweep. -/
structure SweepJson where
  records : RecordJson
  checkout : Bytes → Option CheckoutRecord
  manifest : Bytes → Option TaskActionManifest
  text : Protocol.Json

/-- The version of checkout records. -/
def checkoutRecordVersion : ℕ := 1

/-- How long a claim outlives the last build, in seconds: thirty days. -/
def checkoutRetentionSecs : ℕ := 2592000

/-- Nanoseconds in a second. -/
def secondNanos : ℤ := 1000000000

/-- Whether no build has renewed a claim for too long. -/
def claimHasExpired (now : ℤ) (record : CheckoutRecord) : Bool :=
  0 ≤ now ∧ checkoutRetentionSecs < (now / secondNanos).toNat - record.updatedSecs

/-- A claim speaks for a checkout that is there and builds. -/
def claimIsLive (around : Surroundings) (record : CheckoutRecord) : Bool :=
  around.checkoutIsLiveOn record.workspaceRoot && !claimHasExpired around.now record

/-- A checkout record of this version. -/
def readCheckoutRecord (json : SweepJson) (bytes : Bytes) : Option CheckoutRecord :=
  (json.checkout bytes).filter fun record => record.version = checkoutRecordVersion

/-- The identity in whose directory a record lies; none for a file beside the directories. -/
def recordIdentity (file : StoredFile) : Option String :=
  match file.path with
  | identity :: _ :: _ => if validTaskIdentity identity then some identity else none
  | _ => none

/-- What the records of checkouts say. -/
structure CheckoutScan where
  liveIdentities : List String
  staleRecords : List StoredFile

/-- Look at one record. A record that cannot be read claims nothing and stays. -/
def scanRecord (json : SweepJson) (around : Surroundings) (scan : CheckoutScan)
    (file : StoredFile) : CheckoutScan :=
  match recordIdentity file with
  | none => scan
  | some identity =>
    match readCheckoutRecord json file.bytes with
    | none => scan
    | some record =>
      if claimIsLive around record then
        { scan with liveIdentities := scan.liveIdentities ++ [identity] }
      else { scan with staleRecords := scan.staleRecords ++ [file] }

/-- Look at all records. -/
def scanCheckouts (json : SweepJson) (around : Surroundings) (checkouts : FileTree) :
    CheckoutScan :=
  checkouts.files.foldl (scanRecord json around) ⟨[], []⟩

/-! ## Task manifests -/

/-- An entry of the directory of task manifests. -/
structure ManifestEntry where
  name : String
  isFile : Bool
  bytes : Bytes
  modified : ℤ
deriving DecidableEq

/-- The directory of task manifests, and the one with their locks. -/
structure ManifestDirectory where
  entries : List ManifestEntry
  locks : Finset String
  locksDirectory : Bool
  distinct : (entries.map ManifestEntry.name).Nodup
  locksInside : ∀ identity ∈ locks, locksDirectory = true

namespace ManifestDirectory

/-- The entry with a name. -/
def find (directory : ManifestDirectory) (name : String) : Option ManifestEntry :=
  directory.entries.find? fun entry => entry.name = name

/-- The directory without an entry and without its lock. -/
def erase (directory : ManifestDirectory) (name identity : String) : ManifestDirectory where
  entries := directory.entries.filter fun entry => entry.name ≠ name
  locks := directory.locks.erase identity
  locksDirectory := directory.locksDirectory
  distinct := directory.distinct.sublist (List.filter_sublist.map _)
  locksInside other hother := directory.locksInside other (Finset.mem_of_mem_erase hother)

/-- Take the lock of a task manifest unless another process holds it. Its file is created in
the directory for locks, if there is one. -/
def claimTaskManifestLock (around : Surroundings) (directory : ManifestDirectory)
    (identity : String) : Option ManifestDirectory :=
  if hlocks : directory.locksDirectory = true then
    if around.lockHeld identity then none
    else
      some { directory with
        locks := insert identity directory.locks
        locksInside := fun _ _ => hlocks }
  else none

end ManifestDirectory

/-- How long a manifest without a claim stays: a day. -/
def taskManifestGrace : ℤ := 86400000000000

/-- Whether a manifest was not written for long. -/
def taskManifestIsIdle (now : ℤ) (entry : ManifestEntry) : Bool :=
  taskManifestGrace < now - entry.modified

/-- The ending of the name of a task manifest. -/
def manifestEnding : String := ".json"

/-- Where a manifest lies. -/
def manifestPath (name : String) : Path := ["task-manifests", "v1", name]

section Manifests

variable (json : SweepJson) (around : Surroundings) (held : Path → Bool) (dryRun : Bool)
  (live : List String)

/-- Remove one manifest whose lock is taken, and then the lock, if the manifest is still
idle. -/
def removeLocked (entry : ManifestEntry) (identity : String)
    (state : RemovedFiles × ManifestDirectory) : RemovedFiles × ManifestDirectory :=
  match state.2.find entry.name with
  | none => state
  | some again =>
    if !again.isFile || !taskManifestIsIdle around.now again then state
    else if held (manifestPath entry.name) then state
    else
      (⟨state.1.count + 1, state.1.bytes + again.bytes.length⟩,
        state.2.erase entry.name identity)

/-- Drop one manifest that no live checkout claims. A dry run does not create the lock. -/
def pruneTaskManifest (state : RemovedFiles × ManifestDirectory) (entry : ManifestEntry) :
    RemovedFiles × ManifestDirectory :=
  match Strings.stripSuffix entry.name manifestEnding with
  | none => state
  | some identity =>
    if !validTaskIdentity identity || identity ∈ live then state
    else if !entry.isFile || !taskManifestIsIdle around.now entry then state
    else if dryRun then
      if identity ∈ state.2.locks ∧ (state.2.claimTaskManifestLock around identity).isNone then
        state
      else (⟨state.1.count + 1, state.1.bytes + entry.bytes.length⟩, state.2)
    else
      match state.2.claimTaskManifestLock around identity with
      | none => state
      | some locked => removeLocked around held entry identity (state.1, locked)

/-- Drop the manifests that no live checkout claims. -/
def pruneTaskManifests (directory : ManifestDirectory) : RemovedFiles × ManifestDirectory :=
  directory.entries.foldl (pruneTaskManifest around held dryRun live) (⟨0, 0⟩, directory)

/-- The actions that the manifest of a task predicts. -/
def taskManifestActions (directory : ManifestDirectory) (task : String) : List Digest :=
  match directory.find (task ++ manifestEnding) with
  | none => []
  | some entry =>
    if entry.isFile then
      match json.manifest entry.bytes with
      | none => []
      | some manifest =>
        if manifest.task = task ∧ manifest.validate json.text then
          manifest.predictions.map fun prediction => prediction.action
        else []
    else []

/-- The actions that the manifests of live checkouts predict. -/
def manifestActions (directory : ManifestDirectory) : List Digest :=
  live.flatMap (taskManifestActions json directory)

end Manifests

/-! ## Sessions -/

/-- Limits on the event streams of finished sessions. -/
structure SessionRetention where
  maxAge : Option ℤ
  maxSessions : Option ℕ

/-- The ending of the name of an event stream. -/
def streamEnding : String := ".jsonl"

/-- The sessions, oldest first. -/
def sessionIds (sessions : FileTree) : List String :=
  (sessions.files.filterMap fun file =>
    match file.path with
    | [name] => Strings.stripSuffix name streamEnding
    | _ => none).insertionSort (· ≤ ·)

/-- Whether a stream is too old. -/
def streamIsStale (now : ℤ) (retention : SessionRetention) (file : StoredFile) : Bool :=
  match retention.maxAge with
  | none => false
  | some limit => file.used ≤ now ∧ limit < now - file.used

/-- Drop the stream of one session. -/
def pruneSession (around : Surroundings) (held : Path → Bool) (dryRun : Bool)
    (retention : SessionRetention) (surplus : ℕ) (state : RemovedFiles × FileTree)
    (session : String × ℕ) : RemovedFiles × FileTree :=
  match state.2.files.find? fun file => file.path = [session.1 ++ streamEnding] with
  | none => state
  | some file =>
    if surplus ≤ session.2 ∧ !streamIsStale around.now retention file then state
    else if around.sessionIsLive session.1 then state
    else removeCounted held dryRun state file

/-- Drop the streams of old sessions and of too many sessions. -/
def pruneSessions (around : Surroundings) (held : Path → Bool) (dryRun : Bool)
    (retention : SessionRetention) (sessions : FileTree) : RemovedFiles × FileTree :=
  let ids := sessionIds sessions
  let surplus := match retention.maxSessions with
    | none => 0
    | some limit => ids.length - limit
  ids.zipIdx.foldl (pruneSession around held dryRun retention surplus) (⟨0, 0⟩, sessions)

/-! ## The sweep -/

/-- Everything that a sweep looks at. -/
structure SweptStore where
  contents : Contents
  checkouts : FileTree
  manifests : ManifestDirectory
  sessions : FileTree
  groupedActions : List Digest

/-- What a sweep reports. -/
structure SweepOutcome where
  removedObjects : ℕ
  removedActionResults : ℕ
  removedCheckoutRecords : ℕ
  removedTaskManifests : ℕ
  removedSessionStreams : ℕ
  /-- The length of what was removed, without the records of checkouts. -/
  removedBytes : ℕ
  remainingBytes : ℕ
deriving DecidableEq

/-- Sweep a store. -/
def sweepWithMode (json : SweepJson) (around : Surroundings) (held : Path → Bool) (dryRun : Bool)
    (alreadyRemoved : Finset Path) (maxBytes : ℕ) (retention : SessionRetention)
    (store : SweptStore) : SweepOutcome × SweptStore :=
  let scan := scanCheckouts json around store.checkouts
  let (records, checkouts) :=
    scan.staleRecords.foldl (removeCounted held dryRun) (⟨0, 0⟩, store.checkouts)
  let (pruned, manifests) :=
    pruneTaskManifests around held dryRun scan.liveIdentities store.manifests
  let (collected, contents) := gcWithMode json.records held dryRun
    (manifestActions json scan.liveIdentities manifests) store.groupedActions alreadyRemoved
    maxBytes store.contents
  let (streams, sessions) := pruneSessions around held dryRun retention store.sessions
  (⟨collected.removedObjects, collected.removedActionResults, records.count, pruned.count,
      streams.count, pruned.bytes + collected.removedBytes + streams.bytes,
      collected.remainingBytes⟩,
    ⟨contents, checkouts, manifests, sessions, store.groupedActions⟩)

end MrBoxington.Store
