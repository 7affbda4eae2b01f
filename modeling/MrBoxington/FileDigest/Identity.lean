import Mathlib.Data.Int.Notation
import Mathlib.Tactic.Common

/-!
# File identities

A file identity is the metadata that stands in for a file's contents: path,
length, modification time, change time and object. Linux NFS has an identity of
its own without a change time, and systems other than Unix report neither change
time nor object.
-/

namespace MrBoxington.FileDigest

/-- Nanoseconds since the Unix epoch. -/
abbrev SystemTime := ℤ

/-- Nanoseconds in a second. -/
def nanosPerSecond : ℤ := 1000000000

/-- A file object: its device and inode number. -/
structure Node where
  dev : UInt64
  ino : UInt64
deriving DecidableEq

/-- What the system reports about a file. -/
structure Metadata where
  node : Node
  isFile : Bool
  len : ℕ
  modified : Option SystemTime
  changed : SystemTime
deriving DecidableEq

/-- The kind of system that the code is compiled for, and for Linux which devices
hold NFS. -/
inductive Platform where
  | linux (nfs : UInt64 → Bool)
  | unix
  | other

/-- Linux is a Unix. -/
def Platform.isUnix : Platform → Bool
  | linux _ => true
  | unix => true
  | other => false

/-- The kernel identity of one file object. -/
structure FileObjectIdentity where
  deviceMajor : UInt32
  deviceMinor : UInt32
  mountId : UInt64
  inode : UInt64
deriving DecidableEq

/-- The identity that a recorded file digest describes. -/
structure FileIdentity where
  path : String
  len : ℕ
  modified : SystemTime
  changed : Option (ℤ × ℤ)
  object : Option FileObjectIdentity
deriving DecidableEq

/-- The change time split into seconds and nanoseconds. -/
def splitTime (time : SystemTime) : ℤ × ℤ := (time / nanosPerSecond, time % nanosPerSecond)

/-- The halves of the device number, and the inode number. -/
def Node.object (node : Node) : FileObjectIdentity where
  deviceMajor := (node.dev >>> 32).toUInt32
  deviceMinor := node.dev.toUInt32
  mountId := 0
  inode := node.ino

/-- The change time, where the platform has one. -/
def changeToken (platform : Platform) (metadata : Metadata) : Option (ℤ × ℤ) :=
  if platform.isUnix then some (splitTime metadata.changed) else none

/-- The object, where the platform has one. -/
def metadataObjectIdentity (platform : Platform) (metadata : Metadata) :
    Option FileObjectIdentity :=
  if platform.isUnix then some metadata.node.object else none

/-- The identity in a file's metadata. -/
def describe (platform : Platform) (path : String) (metadata : Metadata) : Option FileIdentity :=
  metadata.modified.map fun modified =>
    { path := path
      len := metadata.len
      modified := modified
      changed := changeToken platform metadata
      object := metadataObjectIdentity platform metadata }

/-- The answer of the statx system call. -/
structure Statx where
  mask : UInt32
  modifiedSeconds : ℤ
  modifiedNanos : UInt32
  size : ℕ
  deviceMajor : UInt32
  deviceMinor : UInt32
  mountId : UInt64
  inode : UInt64

/-- Inode, length, modification time and mount identifier. -/
def statxIdentityMask : UInt32 := 0x100 ||| 0x200 ||| 0x40 ||| 0x1000

/-- The identity on Linux NFS, which omits the change time. -/
def nfsIdentityFromStatx (path : String) (status : Statx) : Option FileIdentity :=
  if status.mask &&& statxIdentityMask ≠ statxIdentityMask ∨ 1000000000 ≤ status.modifiedNanos then
    none
  else
    some
      { path := path
        len := status.size
        modified := status.modifiedSeconds * nanosPerSecond + status.modifiedNanos.toNat
        changed := none
        object := some ⟨status.deviceMajor, status.deviceMinor, status.mountId, status.inode⟩ }

/-- Whether the change time of a file may move without a write. -/
def metadataIdentityIsUnreliable (platform : Platform) (device : UInt64) : Bool :=
  match platform with
  | .linux nfs => nfs device
  | _ => false

/-- The identity to record a digest under. The statx call is made on Linux NFS only,
and has no answer on an old kernel. -/
def digestCacheIdentity (platform : Platform) (path : String) (metadata : Metadata)
    (status : Option Statx) (unreliable : Bool) : Option FileIdentity :=
  if unreliable then status.bind (nfsIdentityFromStatx path)
  else describe platform path metadata

/-- The identity of a file when its metadata can stand in for its digest. -/
def forDigestCache (platform : Platform) (path : String) (metadata : Metadata)
    (status : Option Statx) : Option FileIdentity :=
  digestCacheIdentity platform path metadata status
    (metadataIdentityIsUnreliable platform metadata.node.dev)

/-- Whether the file now at the path has exactly this identity. -/
def FileIdentity.stillDescribes (identity : FileIdentity) (platform : Platform)
    (metadata : Metadata) (status : Option Statx) : Bool :=
  forDigestCache platform identity.path metadata status = some identity

/-- The window for filesystems that keep fractions of a second: 20 milliseconds. -/
def fineTimestampRaceWindow : ℤ := 20000000

/-- The window for filesystems that keep whole seconds: 2 seconds. -/
def coarseTimestampRaceWindow : ℤ := 2000000000

/-- The nanoseconds in the second of a time; none before the epoch. -/
def subsecNanos (time : SystemTime) : ℤ := if time < 0 then 0 else time % nanosPerSecond

/-- Both times of an identity are whole seconds. -/
def FileIdentity.coarse (identity : FileIdentity) : Bool :=
  subsecNanos identity.modified = 0 ∧ identity.changed.all fun changed => changed.2 = 0

/-- The time in which another write might show the same timestamps. -/
def raceWindow (identity : FileIdentity) : ℤ :=
  if identity.coarse then coarseTimestampRaceWindow else fineTimestampRaceWindow

/-- A time in the future, or less than the window ago. -/
def recent (window : ℤ) (observedAt time : SystemTime) : Bool :=
  if observedAt < time then true else observedAt - time < window

/-- The last write is so recent that another one could show the same times. -/
def identityIsRacy (identity : FileIdentity) (observedAt : SystemTime) : Bool :=
  recent (raceWindow identity) observedAt identity.modified ||
    identity.changed.any fun changed =>
      if changed.1 < 0 then true
      else recent (raceWindow identity) observedAt (changed.1 * nanosPerSecond + changed.2)

/-- Whether two answers are about one file, as far as the platform can tell. -/
def metadataNamesSameFile (platform : Platform) (left right : Metadata) : Bool :=
  if platform.isUnix then left.node = right.node else true

/-- The major device number in Linux's encoding. -/
def linuxMajor (device : UInt64) : UInt64 :=
  ((device >>> 8) &&& (0x0fff : UInt64)) ||| ((device >>> 32) &&& (0xfffff000 : UInt64))

/-- The minor device number in Linux's encoding. -/
def linuxMinor (device : UInt64) : UInt64 :=
  (device &&& (0x00ff : UInt64)) ||| ((device >>> 12) &&& (0xffffff00 : UInt64))

/-- Whether metadata is of the object that statx reported. -/
def metadataMatchesObject (metadata : Metadata) (object : FileObjectIdentity) : Bool :=
  linuxMajor metadata.node.dev = object.deviceMajor.toUInt64 ∧
    linuxMinor metadata.node.dev = object.deviceMinor.toUInt64 ∧ metadata.node.ino = object.inode

section Lemmas

variable {platform : Platform} {path : String} {metadata : Metadata} {status : Option Statx}
  {identity : FileIdentity}

theorem Node.object_injective : Function.Injective Node.object := by
  rintro ⟨dev, ino⟩ ⟨dev', ino'⟩ heq
  simp only [Node.object, FileObjectIdentity.mk.injEq] at heq
  obtain ⟨hmajor, hminor, -, hino⟩ := heq
  have hdev : dev = dev' := by
    have hhigh := congrArg UInt32.toNat hmajor
    have hlow := congrArg UInt32.toNat hminor
    have hshift : UInt64.toNat 32 % 64 = 32 := rfl
    simp only [UInt64.toNat_toUInt32, UInt64.toNat_shiftRight, Nat.shiftRight_eq_div_pow,
      hshift] at hhigh hlow
    have hlt := dev.toNat_lt
    have hlt' := dev'.toNat_lt
    apply UInt64.toNat_inj.mp
    omega
  subst hdev hino
  rfl

/-- Seconds and nanoseconds give the time back. -/
theorem splitTime_time (time : SystemTime) :
    (splitTime time).1 * nanosPerSecond + (splitTime time).2 = time := by
  unfold splitTime nanosPerSecond
  dsimp only
  omega

theorem forDigestCache_reliable (hunix : platform.isUnix)
    (hreliable : metadataIdentityIsUnreliable platform metadata.node.dev = false)
    (hidentity : forDigestCache platform path metadata status = some identity) :
    identity.changed = some (splitTime metadata.changed) ∧
      identity.object = some metadata.node.object := by
  unfold forDigestCache digestCacheIdentity describe at hidentity
  rw [hreliable] at hidentity
  obtain ⟨modified, -, rfl⟩ := Option.map_eq_some_iff.mp hidentity
  simp [changeToken, metadataObjectIdentity, hunix]

/-- Only a reliable file system yields a change time. -/
theorem reliable_of_changed {token : ℤ × ℤ}
    (hidentity : forDigestCache platform path metadata status = some identity)
    (hchanged : identity.changed = some token) :
    metadataIdentityIsUnreliable platform metadata.node.dev = false := by
  by_contra hunreliable
  unfold forDigestCache digestCacheIdentity at hidentity
  rw [if_pos (by simpa using hunreliable)] at hidentity
  obtain ⟨status, -, hstatus⟩ := Option.bind_eq_some_iff.mp hidentity
  unfold nfsIdentityFromStatx at hstatus
  split at hstatus
  · exact absurd hstatus.symm (Option.some_ne_none _)
  · rw [← Option.some.inj hstatus] at hchanged
    exact absurd hchanged.symm (Option.some_ne_none _)

/-- A settled identity changed a whole race window before it was observed. -/
theorem changed_le_of_settled {time observedAt : SystemTime}
    (hchanged : identity.changed = some (splitTime time))
    (hsettled : identityIsRacy identity observedAt = false) :
    time + raceWindow identity ≤ observedAt := by
  unfold identityIsRacy at hsettled
  rw [hchanged, Bool.or_eq_false_iff] at hsettled
  have hrecent := hsettled.2
  simp only [Option.any_some, splitTime_time, recent] at hrecent
  split at hrecent
  · exact absurd hrecent (by decide)
  · split at hrecent
    · exact absurd hrecent (by decide)
    · have hage := Int.not_lt.mp (of_decide_eq_false hrecent)
      exact Int.add_le_of_le_sub_left hage

end Lemmas

end MrBoxington.FileDigest
