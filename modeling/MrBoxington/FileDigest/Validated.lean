import Mathlib.Algebra.Order.Ring.Nat
import Mathlib.Data.List.Infix
import MrBoxington.FileDigest.Identity
import MrBoxington.Lib.ChangeTime
import MrBoxington.Lib.Runs
import MrBoxington.Protocol.Digest

/-!
# Validated digests

A validated digest is read from one open handle: the clock, the handle's metadata,
the contents chunk by chunk, the handle's metadata again, and the metadata at the
path. It comes with an identity for later reuse only when the file was not written
within the race window before the read began. Other processes write files and
move the path to other files at any moment.
-/

namespace MrBoxington.FileDigest

open Protocol (Digest asciiBytes)

/-- What a digest may stand in for. -/
inductive FileDigestScope where
  | content
  /-- A compiler input that also passed the scan for timestamp macros. -/
  | ccInput
deriving DecidableEq

/-- The outcome of reading a file under a scope. -/
inductive FileDigestResolution where
  | digest (digest : Digest)
  | embeddedTimestampMacro
deriving DecidableEq

/-- The macros whose value depends on the time. -/
def timestampMacros : List (List UInt8) :=
  ["__DATE__", "__TIME__", "__TIMESTAMP__"].map asciiBytes

/-- The length of the longest macro. -/
def longestMacro : ℕ := (timestampMacros.map List.length).foldl max 0

/-- The size of the buffer for one chunk. -/
def digestBufferBytes : ℕ := 64 * 1024

/-- What reading a file accumulates. -/
structure Reader where
  hashed : List UInt8
  size : ℕ
  window : List UInt8
  foundTimestampMacro : Bool

/-- Before the first chunk. -/
def Reader.start : Reader := ⟨[], 0, [], false⟩

/-- Why no digest is returned. -/
inductive DigestError where
  | notRegular (path : String)
  | replaced
  | changed
  | overflowed
  | unsupported
deriving DecidableEq

/-- The text of an error, unless the system supplies it. -/
def DigestError.message : DigestError → Option String
  | notRegular path => some ("digest path is not a regular file: " ++ path)
  | replaced => some "file was replaced while its contents were being read"
  | changed => some "file changed while its contents were being read"
  | overflowed => some "file length overflowed u64"
  | unsupported => none

/-- Only regular files have digests. -/
def requireRegular (path : String) (metadata : Metadata) : Except DigestError Unit :=
  if metadata.isFile then .ok () else .error (.notRegular path)

/-- The scan of one more chunk for macros. -/
def Reader.scan (reader : Reader) (chunk : List UInt8) : List UInt8 × Bool :=
  let window := reader.window ++ chunk
  (window.drop (window.length - (longestMacro - 1)), timestampMacros.any (· <:+: window))

/-- One chunk is read. -/
def Reader.update (scope : FileDigestScope) (reader : Reader) (chunk : List UInt8) :
    Except DigestError Reader :=
  if 2 ^ 64 ≤ reader.size + chunk.length then .error .overflowed
  else if scope = .ccInput ∧ reader.foundTimestampMacro = false then
    .ok ⟨reader.hashed ++ chunk, reader.size + chunk.length, (reader.scan chunk).1,
      (reader.scan chunk).2⟩
  else
    .ok { reader with hashed := reader.hashed ++ chunk, size := reader.size + chunk.length }

/-- The outcome after the last chunk. -/
def Reader.resolution (blake3 : List UInt8 → String) (reader : Reader) : FileDigestResolution :=
  if reader.foundTimestampMacro then .embeddedTimestampMacro
  else .digest ⟨"blake3", blake3 reader.hashed, reader.size⟩

/-- Whether the modification times and objects agree, on Linux NFS. -/
def stableOnNfs (before after : Metadata) (current : FileIdentity) : Except DigestError Bool :=
  match before.modified, after.modified with
  | some beforeModified, some afterModified =>
    .ok (beforeModified = afterModified ∧ afterModified = current.modified ∧
      current.object.all fun object =>
        metadataMatchesObject before object && metadataMatchesObject after object)
  | _, _ => .error .unsupported

/-- Whether the handle's metadata did not change during the read and is that of the
path. -/
def handleAndPathAreStable (platform : Platform) (path : String) (before after : Metadata)
    (current : FileIdentity) (unreliable : Bool) (digestSize : ℕ) : Except DigestError Bool :=
  if before.len ≠ after.len ∨ after.len ≠ digestSize ∨ current.len ≠ digestSize then .ok false
  else if metadataNamesSameFile platform before after = false then .ok false
  else if unreliable then
    match platform with
    | .linux _ => stableOnNfs before after current
    | _ => .ok false
  else
    .ok ((describe platform path before).isSome ∧
      describe platform path before = describe platform path after ∧
      describe platform path after = some current)

/-- A digest tied to the file and path that were read. -/
structure ValidatedFileDigest where
  resolution : FileDigestResolution
  identity : FileIdentity
  cacheIdentity : Option FileIdentity
  racy : Bool

/-- What one read gathers, in this order. -/
structure Observed where
  started : SystemTime
  before : Metadata
  reader : Reader
  after : Metadata
  current : Metadata
  status : Option Statx

/-- The identity to record the digest under. -/
def Observed.cacheIdentity (observed : Observed) (platform : Platform) (path : String) :
    Option FileIdentity :=
  forDigestCache platform path observed.current observed.status

/-- The identity to compare with. -/
def Observed.identity (observed : Observed) (platform : Platform) (path : String) :
    Option FileIdentity :=
  (observed.cacheIdentity platform path).or (describe platform path observed.current)

/-- The result for a stable file: the identity is offered unless the file is racy. -/
def Observed.result (observed : Observed) (platform : Platform) (blake3 : List UInt8 → String)
    (path : String) (identity : FileIdentity) : ValidatedFileDigest :=
  let cacheIdentity := observed.cacheIdentity platform path
  let racy := cacheIdentity.any (identityIsRacy · observed.started)
  { resolution := observed.reader.resolution blake3
    identity := identity
    cacheIdentity := cacheIdentity.filter fun _ => !racy
    racy := racy }

/-- The checks after the read. -/
def Observed.validate (observed : Observed) (platform : Platform) (blake3 : List UInt8 → String)
    (path : String) : Except DigestError (Option ValidatedFileDigest) :=
  match observed.identity platform path with
  | none => .ok none
  | some identity =>
    if metadataNamesSameFile platform observed.after observed.current = false then
      .error .replaced
    else
      match handleAndPathAreStable platform path observed.before observed.after identity
        (metadataIdentityIsUnreliable platform observed.current.node.dev)
        observed.reader.size with
      | .error error => .error error
      | .ok false => .error .changed
      | .ok true => .ok (some (observed.result platform blake3 path identity))

/-- A system on which digests are taken. -/
structure System where
  platform : Platform
  tick : UInt64 → ℤ
  tick_pos : ∀ device, 0 < tick device
  blake3 : List UInt8 → String
  path : String

/-- A file on disk. -/
structure File where
  isFile : Bool
  bytes : List UInt8
  modified : Option SystemTime
  changed : SystemTime

/-- The metadata of a file. -/
def File.metadata (file : File) (node : Node) : Metadata :=
  ⟨node, file.isFile, file.bytes.length, file.modified, file.changed⟩

/-- The complete answer of statx for a file. -/
def File.statx (file : File) (node : Node) (modified : SystemTime) (mountId : UInt64) : Statx where
  mask := statxIdentityMask
  modifiedSeconds := modified / nanosPerSecond
  modifiedNanos := UInt32.ofNat (modified % nanosPerSecond).toNat
  size := file.bytes.length
  deviceMajor := (linuxMajor node.dev).toUInt32
  deviceMinor := (linuxMinor node.dev).toUInt32
  mountId := mountId
  inode := node.ino

/-- Where a process stands in taking a digest. -/
inductive DigestPhase where
  | idle
  | opening (scope : FileDigestScope) (started : SystemTime)
  | opened (scope : FileDigestScope) (started : SystemTime) (node : Node)
  | reading (scope : FileDigestScope) (started : SystemTime) (node : Node) (before : Metadata)
      (reader : Reader)
  | exhausted (started : SystemTime) (node : Node) (before : Metadata) (reader : Reader)
  | restated (started : SystemTime) (node : Node) (before : Metadata) (reader : Reader)
      (after : Metadata)
  | located (started : SystemTime) (node : Node) (before : Metadata) (reader : Reader)
      (after current : Metadata)

/-- A digest that was returned, with what was read for it and the device of the file
then at the path. -/
structure Returned where
  validated : ValidatedFileDigest
  reader : Reader
  device : UInt64

/-- The files, the path, and the processes that take digests. -/
structure DigestState (π : Type) where
  store : ChangeTime.Store Node File
  named : Option Node
  phase : π → DigestPhase
  returned : List Returned

/-- What statx may answer for the path: nothing, on an old kernel, or the fields of
the file that it names. -/
inductive StatxAnswer (store : ChangeTime.Store Node File) (named : Option Node) :
    Option Statx → Prop
  | unsupported : StatxAnswer store named none
  | complete {node modified} (mountId : UInt64) (hnamed : named = some node)
      (hmodified : (store.file node).modified = some modified) :
      StatxAnswer store named (some ((store.file node).statx node modified mountId))

section Steps

variable {π : Type} [DecidableEq π]

/-- The metadata that the system reports for a file now. -/
def DigestState.metadata (s : DigestState π) (node : Node) : Metadata :=
  (s.store.file node).metadata node

/-- The state after process `p` moves to another phase. -/
def DigestState.enter (s : DigestState π) (p : π) (phase : DigestPhase) : DigestState π :=
  { s with phase := Function.update s.phase p phase }

/-- The state after process `p` returned a digest. -/
def DigestState.return (s : DigestState π) (p : π) (returned : Returned) : DigestState π :=
  { s with phase := Function.update s.phase p .idle, returned := returned :: s.returned }

/-- One step of process `p`, or of the world around it. -/
inductive DigestStep (system : System) (p : π) : DigestState π → DigestState π → Prop
  | start {s} (scope : FileDigestScope) (hphase : s.phase p = .idle) :
      DigestStep system p s (s.enter p (.opening scope s.store.now))
  | openFile {s scope started node} (hphase : s.phase p = .opening scope started)
      (hnamed : s.named = some node) :
      DigestStep system p s (s.enter p (.opened scope started node))
  | stat {s scope started node} (hphase : s.phase p = .opened scope started node)
      (hfile : requireRegular system.path (s.metadata node) = .ok ()) :
      DigestStep system p s
        (s.enter p (.reading scope started node (s.metadata node) .start))
  | read {s scope started node before reader reader'} (length : ℕ)
      (hphase : s.phase p = .reading scope started node before reader)
      (hlength : 0 < length ∧ length ≤ digestBufferBytes)
      (hmore : reader.hashed.length < (s.store.file node).bytes.length)
      (hupdate : reader.update scope
        (((s.store.file node).bytes.drop reader.hashed.length).take length) = .ok reader') :
      DigestStep system p s (s.enter p (.reading scope started node before reader'))
  | finish {s scope started node before reader}
      (hphase : s.phase p = .reading scope started node before reader)
      (hend : (s.store.file node).bytes.length ≤ reader.hashed.length) :
      DigestStep system p s (s.enter p (.exhausted started node before reader))
  | restat {s started node before reader}
      (hphase : s.phase p = .exhausted started node before reader) :
      DigestStep system p s (s.enter p (.restated started node before reader (s.metadata node)))
  | locate {s started node before reader after current}
      (hphase : s.phase p = .restated started node before reader after)
      (hnamed : s.named = some current) :
      DigestStep system p s
        (s.enter p (.located started node before reader after (s.metadata current)))
  | accept {s started node before reader after current status validated}
      (hphase : s.phase p = .located started node before reader after current)
      (hstatus : StatxAnswer s.store s.named status)
      (hvalid : Observed.validate ⟨started, before, reader, after, current, status⟩
        system.platform system.blake3 system.path = .ok (some validated)) :
      DigestStep system p s (s.return p ⟨validated, reader, current.node.dev⟩)
  | abort {s} : DigestStep system p s (s.enter p .idle)
  | pass {s} {now : SystemTime} (hnow : s.store.now ≤ now) :
      DigestStep system p s { s with store := { s.store with now := now } }
  /-- Somebody writes or creates a file, and sets its modification time at will. The
  filesystem stamps its change time. -/
  | write {s} (node : Node) (file : File)
      (hstamp : file.changed = ChangeTime.roundDown (system.tick node.dev) s.store.now) :
      DigestStep system p s
        { s with store := { s.store with file := Function.update s.store.file node file } }
  | rename {s} (named : Option Node) : DigestStep system p s { s with named := named }

/-- Some process takes a step. -/
def DigestStepAny (system : System) (s t : DigestState π) : Prop := ∃ p, DigestStep system p s t

end Steps

/-- Nobody has started, whatever files are there. -/
structure DigestState.Initial {π : Type} (s : DigestState π) : Prop where
  phase : ∀ p, s.phase p = .idle
  returned : s.returned = []

end MrBoxington.FileDigest
