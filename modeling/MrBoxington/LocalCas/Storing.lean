import MrBoxington.Lib.ChangeTime
import MrBoxington.Lib.Runs
import MrBoxington.Protocol.Hashing

/-!
# Storing objects by digest

Processes store bytes, copy files and adopt verified files into a content-addressed
store. A file is hashed before it is copied, and the copy is trusted if the file shows the
same metadata before and afterwards. Writers rewrite files in place at any moment, and the
filesystem stamps each write with the time rounded down to a tick.
-/

namespace MrBoxington.LocalCas

open Protocol (Bytes Digest Hasher)
open ChangeTime (Store roundDown)

/-- Contents have the length and the hash of a digest. -/
def Matches (hasher : Hasher) (digest : Digest) (bytes : Bytes) : Prop :=
  digest.matchesBytes hasher bytes = .ok true

instance (hasher : Hasher) (digest : Digest) (bytes : Bytes) :
    Decidable (Matches hasher digest bytes) :=
  match h : digest.matchesBytes hasher bytes with
  | .ok true => .isTrue h
  | .ok false => .isFalse fun heq => by rw [Matches, h] at heq; cases heq
  | .error _ => .isFalse fun heq => by rw [Matches, h] at heq; cases heq

/-- A file outside the store. -/
structure File where
  bytes : Bytes
  modified : ℤ
  changed : ℤ

variable {S : Type}

/-- What is compared of a file. -/
structure Metadata (S : Type) where
  node : S
  len : ℕ
  modified : ℤ
  changed : ℤ
deriving DecidableEq

/-- The metadata of a file. -/
def File.metadata (file : File) (node : S) : Metadata S :=
  ⟨node, file.bytes.length, file.modified, file.changed⟩

/-- Whether two views of a file could describe the same unmodified bytes. -/
def sameIdentity [DecidableEq S] (before after : Metadata S) : Bool :=
  if before.len ≠ after.len ∨ before.modified ≠ after.modified then false
  else if before.node ≠ after.node ∨ before.changed ≠ after.changed then false
  else true

/-- A file in the store. -/
inductive Stored (S : Type) where
  | copied (bytes : Bytes)
  | moved (source : S)

/-- The contents of a file in the store. -/
def Stored.bytes (file : S → File) : Stored S → Bytes
  | .copied bytes => bytes
  | .moved source => (file source).bytes

/-- The file at the path of each digest. -/
abbrev Cas (S : Type) := Digest → Option (Stored S)

/-- What a process asks for. -/
inductive Call (S : Type) where
  | storeBytes (digest : Digest) (bytes : Bytes)
  | storeFile (digest : Digest) (source : S)
  | storeVerifiedFile (digest : Digest) (source : S)
  | adoptVerifiedFile (digest : Digest) (source : S)

/-- The digest of a call. -/
def Call.digest : Call S → Digest
  | .storeBytes digest _ => digest
  | .storeFile digest _ => digest
  | .storeVerifiedFile digest _ => digest
  | .adoptVerifiedFile digest _ => digest

/-- Where a process is. -/
inductive Phase (S : Type) where
  | idle
  | measuring (digest : Digest) (source : S)
  | finding (call : Call S)
  | moving (digest : Digest) (source : S)
  | observing (digest : Digest) (source : S) (replaceInvalid : Bool)
  | hashing (digest : Digest) (source : S) (replaceInvalid : Bool) (before : Metadata S)
      (hashed : Bytes)
  | copying (digest : Digest) (source : S) (replaceInvalid : Bool) (before : Option (Metadata S))
      (temporary : Bytes)
  | copied (digest : Digest) (source : S) (replaceInvalid : Bool) (before : Option (Metadata S))
      (temporary : Bytes)
  | staged (digest : Digest) (replaceInvalid : Bool) (temporary : Bytes)

/-- How much of an existing object a process can see. -/
inductive Access where
  | hidden
  | unreadable
  | readable

/-- The outcome of a rename. -/
inductive Renamed where
  | done
  | alreadyExists
  | failed

/-- What a process does next. -/
inductive Action where
  | measure
  | find (access : Access)
  | rename (outcome : Renamed)
  | observe
  | read (count : ℕ)
  | recheck
  | persist
  | fail

/-- The outcome of a lookup. -/
inductive Found where
  | absent
  | present
  | invalid

section Acts

variable [DecidableEq S] (hasher : Hasher) (file : S → File) (cas : Cas S)

/-- Find and verify a stored object. -/
def find (digest : Digest) (access : Access) : Found :=
  match cas digest, access with
  | none, _ => .absent
  | some _, .hidden => .absent
  | some _, .unreadable => .invalid
  | some stored, .readable =>
    if Matches hasher digest (stored.bytes file) then .present else .invalid

/-- How a call begins. -/
def Call.start : Call S → Phase S
  | .storeBytes digest bytes =>
    if Matches hasher digest bytes then .finding (.storeBytes digest bytes) else .idle
  | .storeFile digest source => .finding (.storeFile digest source)
  | .storeVerifiedFile digest source => .finding (.storeVerifiedFile digest source)
  | .adoptVerifiedFile digest source => .measuring digest source

/-- How a call goes on when the object is not there or invalid. -/
def Call.proceed (replaceInvalid : Bool) : Call S → Phase S
  | .storeBytes digest bytes =>
    if Matches hasher digest bytes then .staged digest replaceInvalid bytes else .idle
  | .storeFile digest source => .observing digest source replaceInvalid
  | .storeVerifiedFile digest source => .copying digest source replaceInvalid none []
  | .adoptVerifiedFile digest source =>
    if replaceInvalid then .finding (.storeVerifiedFile digest source)
    else .moving digest source

/-- The next bytes of a file. -/
def nextChunk (source : S) (done : Bytes) (count : ℕ) : Bytes :=
  ((file source).bytes.drop done.length).take count

/-- What a process does in its phase, with its effect on the store. -/
def Phase.act : Phase S → Action → Option (Phase S × Cas S)
  | _, .fail => some (.idle, cas)
  | .measuring digest source, .measure =>
    if (file source).bytes.length ≠ digest.size then some (.idle, cas)
    else some (.finding (.adoptVerifiedFile digest source), cas)
  | .finding call, .find access =>
    match call.digest.validated with
    | .error _ => some (.idle, cas)
    | .ok _ =>
      match find hasher file cas call.digest access with
      | .present => some (.idle, cas)
      | .absent => some (call.proceed hasher false, cas)
      | .invalid => some (call.proceed hasher true, cas)
  | .moving digest source, .rename outcome =>
    match outcome with
    | .done => some (.idle, Function.update cas digest (some (.moved source)))
    | .alreadyExists => some (.idle, cas)
    | .failed => some (.finding (.storeVerifiedFile digest source), cas)
  | .observing digest source replaceInvalid, .observe =>
    some (.hashing digest source replaceInvalid ((file source).metadata source) [], cas)
  | .hashing digest source replaceInvalid before hashed, .read (count + 1) =>
    let chunk := nextChunk file source hashed (count + 1)
    if chunk ≠ [] then
      some (.hashing digest source replaceInvalid before (hashed ++ chunk), cas)
    else if Matches hasher digest hashed then
      some (.copying digest source replaceInvalid (some before) [], cas)
    else some (.idle, cas)
  | .copying digest source replaceInvalid before temporary, .read (count + 1) =>
    let chunk := nextChunk file source temporary (count + 1)
    if chunk ≠ [] then
      some (.copying digest source replaceInvalid before (temporary ++ chunk), cas)
    else some (.copied digest source replaceInvalid before temporary, cas)
  | .copied digest source replaceInvalid before temporary, .recheck =>
    match before with
    | none => some (.staged digest replaceInvalid temporary, cas)
    | some before =>
      if sameIdentity before ((file source).metadata source) then
        some (.staged digest replaceInvalid temporary, cas)
      else some (.idle, cas)
  | .staged digest replaceInvalid temporary, .persist =>
    if temporary.length ≠ digest.size then some (.idle, cas)
    else if replaceInvalid = false ∧ (cas digest).isSome then some (.idle, cas)
    else some (.idle, Function.update cas digest (some (.copied temporary)))
  | _, _ => none

end Acts

section Steps

variable {π : Type} [DecidableEq S] [DecidableEq π]

/-- The store, the files outside it, and the processes. -/
structure State (S π : Type) where
  files : Store S File
  cas : Cas S
  verified : S → Digest → Prop
  phase : π → Phase S

/-- A call for a verified file is made for a file that was verified. -/
def Call.Verified (verified : S → Digest → Prop) : Call S → Prop
  | .storeBytes _ _ => True
  | .storeFile _ _ => True
  | .storeVerifiedFile digest source => verified source digest
  | .adoptVerifiedFile digest source => verified source digest

/-- What may happen, where a file is written only if it may be. Verified files keep their
contents. -/
inductive Step (hasher : Hasher) (tick : ℤ) (mayWrite : State S π → S → Prop) :
    State S π → State S π → Prop
  | pass (s : State S π) (now : ℤ) (hnow : s.files.now ≤ now) :
      Step hasher tick mayWrite s { s with files := { s.files with now := now } }
  | write (s : State S π) (source : S) (file : File) (hmay : mayWrite s source)
      (hstamp : file.changed = roundDown tick s.files.now)
      (hkept : ∀ digest, s.verified source digest →
        file.bytes = (s.files.file source).bytes) :
      Step hasher tick mayWrite s
        { s with files := { s.files with file := Function.update s.files.file source file } }
  | verify (s : State S π) (source : S) (digest : Digest)
      (hmatch : Matches hasher digest (s.files.file source).bytes) :
      Step hasher tick mayWrite s
        { s with verified := fun other found =>
            s.verified other found ∨ other = source ∧ found = digest }
  | call (s : State S π) (p : π) (call : Call S) (hidle : s.phase p = .idle)
      (hverified : call.Verified s.verified) :
      Step hasher tick mayWrite s
        { s with phase := Function.update s.phase p (call.start hasher) }
  | act (s : State S π) (p : π) (action : Action) (phase : Phase S) (cas : Cas S)
      (hact : (s.phase p).act hasher s.files.file s.cas action = some (phase, cas)) :
      Step hasher tick mayWrite s
        { s with cas := cas, phase := Function.update s.phase p phase }

/-- Every file at the path of a digest has this digest. -/
def State.Sound (hasher : Hasher) (s : State S π) : Prop :=
  ∀ digest stored, s.cas digest = some stored →
    Matches hasher digest (stored.bytes s.files.file)

/-- No process has begun, and the store holds copies with their digests. -/
structure State.Initial (hasher : Hasher) (s : State S π) : Prop where
  phase : ∀ p, s.phase p = .idle
  verified : ∀ source digest, ¬s.verified source digest
  cas : ∀ digest stored, s.cas digest = some stored →
    ∃ bytes, stored = .copied bytes ∧ Matches hasher digest bytes

end Steps

end MrBoxington.LocalCas
