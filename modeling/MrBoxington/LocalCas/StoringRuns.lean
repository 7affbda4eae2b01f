import MrBoxington.LocalCas.Storing

/-!
# What a change time says about a copy

A process that hashes a file and copies it trusts the copy if the file shows the same
change time before and afterwards. That is right as long as no write gives the file the
change time that was observed: then a file with this change time was not written in
between, and what was hashed, what was copied and what the file holds is the same. A
write in the tick of the observed change time breaks this.
-/

namespace MrBoxington.LocalCas

open Protocol (Bytes Digest Hasher)
open ChangeTime (Store roundDown)

variable {S π : Type} {hasher : Hasher} {tick : ℤ} {file : S → File} {cas : Cas S}
  {verified : S → Digest → Prop}

/-- The metadata that a process has taken for a comparison. -/
def Phase.observed : Phase S → Option (Metadata S)
  | .hashing _ _ _ before _ => some before
  | .copying _ _ _ before _ => before
  | .copied _ _ _ before _ => before
  | _ => none

/-- A write now does not fall in the tick of a change time that a process has observed for
this file. -/
def OtherTick (tick : ℤ) (s : State S π) (source : S) : Prop :=
  ∀ p before, (s.phase p).observed = some before → before.node = source →
    roundDown tick s.files.now ≠ before.changed

/-- What holds of a process in each phase. -/
def PhaseInv (hasher : Hasher) (file : S → File) (verified : S → Digest → Prop) :
    Phase S → Prop
  | .idle => True
  | .measuring digest source => verified source digest
  | .finding call => call.Verified verified
  | .moving digest source => verified source digest
  | .observing _ _ _ => True
  | .hashing _ source _ before hashed => before.node = source ∧
      ((file source).changed = before.changed → hashed <+: (file source).bytes)
  | .copying digest source _ (some before) temporary => before.node = source ∧
      ((file source).changed = before.changed →
        Matches hasher digest (file source).bytes ∧ temporary <+: (file source).bytes)
  | .copying digest source _ none temporary =>
      verified source digest ∧ temporary <+: (file source).bytes
  | .copied digest source _ (some before) temporary => before.node = source ∧
      ((file source).changed = before.changed → Matches hasher digest temporary)
  | .copied digest _ _ none temporary => Matches hasher digest temporary
  | .staged digest _ temporary => Matches hasher digest temporary

/-- What may come into the store under a digest. -/
def Admitted (hasher : Hasher) (verified : S → Digest → Prop) (digest : Digest) :
    Stored S → Prop
  | .copied bytes => Matches hasher digest bytes
  | .moved source => verified source digest

/-- What holds in every state. -/
structure State.Inv (hasher : Hasher) (s : State S π) : Prop where
  verified : ∀ source digest, s.verified source digest →
    Matches hasher digest (s.files.file source).bytes
  /-- Copies in the store have their digests, and files were moved there after they were
  verified. -/
  cas : ∀ digest stored, s.cas digest = some stored →
    Admitted hasher s.verified digest stored
  phase : ∀ p, PhaseInv hasher s.files.file s.verified (s.phase p)

private theorem State.Inv.sound {s : State S π} (hinv : s.Inv hasher) : s.Sound hasher := by
  intro digest stored hstored
  have hcas := hinv.cas digest stored hstored
  cases stored with
  | copied bytes => exact hcas
  | moved source => exact hinv.verified source digest hcas

private theorem State.Inv.of_initial {s : State S π} (hinitial : s.Initial hasher) :
    s.Inv hasher where
  verified source digest hverified := absurd hverified (hinitial.verified source digest)
  cas digest stored hstored := by
    obtain ⟨bytes, rfl, hmatch⟩ := hinitial.cas digest stored hstored
    exact hmatch
  phase p := by
    rw [hinitial.phase p]
    trivial

private theorem beginning_nextChunk {source : S} {done : Bytes} {count : ℕ}
    (hdone : done <+: (file source).bytes) :
    done ++ nextChunk file source done count <+: (file source).bytes := by
  obtain ⟨rest, hrest⟩ := hdone
  rw [nextChunk, ← hrest, List.drop_left]
  exact (List.prefix_append_right_inj done).2 (List.take_prefix count rest)

private theorem eq_of_nextChunk_nil {source : S} {done : Bytes} {count : ℕ}
    (hdone : done <+: (file source).bytes)
    (hend : nextChunk file source done (count + 1) = []) : done = (file source).bytes := by
  obtain ⟨rest, hrest⟩ := hdone
  rw [nextChunk, ← hrest, List.drop_left, List.take_eq_nil_iff] at hend
  rw [← hrest, hend.resolve_left (by omega), List.append_nil]

private theorem PhaseInv.mono {verified' : S → Digest → Prop} {phase : Phase S}
    (hmono : ∀ source digest, verified source digest → verified' source digest)
    (hinv : PhaseInv hasher file verified phase) : PhaseInv hasher file verified' phase := by
  cases phase with
  | measuring digest source => exact hmono source digest hinv
  | moving digest source => exact hmono source digest hinv
  | finding call =>
    cases call with
    | storeBytes digest bytes => trivial
    | storeFile digest source => trivial
    | storeVerifiedFile digest source => exact hmono source digest hinv
    | adoptVerifiedFile digest source => exact hmono source digest hinv
  | copying digest source replaceInvalid before temporary =>
    cases before with
    | none => exact ⟨hmono source digest hinv.1, hinv.2⟩
    | some before => exact hinv
  | copied digest source replaceInvalid before temporary =>
    cases before with
    | none => exact hinv
    | some before => exact hinv
  | _ => exact hinv

private theorem admitted_update {digest other : Digest} {stored found : Stored S}
    (hadmitted : Admitted hasher verified digest stored)
    (hfound : Function.update cas digest (some stored) other = some found) :
    cas other = some found ∨ Admitted hasher verified other found := by
  by_cases heq : other = digest
  · subst heq
    rw [Function.update_self] at hfound
    cases hfound
    exact .inr hadmitted
  · rw [Function.update_of_ne heq] at hfound
    exact .inl hfound

private theorem PhaseInv.proceed {call : Call S} {replaceInvalid : Bool}
    (hinv : PhaseInv hasher file verified (.finding call)) :
    PhaseInv hasher file verified (call.proceed hasher replaceInvalid) := by
  cases call with
  | storeBytes digest bytes =>
    rw [Call.proceed]
    split
    · rename_i hmatch
      exact hmatch
    · trivial
  | storeFile digest source => trivial
  | storeVerifiedFile digest source => exact ⟨hinv, List.nil_prefix⟩
  | adoptVerifiedFile digest source =>
    cases replaceInvalid with
    | true => exact hinv
    | false => exact hinv

private theorem Call.start_inv {call : Call S} (hcall : call.Verified verified) :
    PhaseInv hasher file verified (call.start hasher) := by
  cases call with
  | storeBytes digest bytes =>
    rw [Call.start]
    split
    · trivial
    · trivial
  | storeFile digest source => trivial
  | storeVerifiedFile digest source => exact hcall
  | adoptVerifiedFile digest source => exact hcall

variable [DecidableEq S]

/-- What is said about a file under an observed change time stays true when it is written
with another change time. -/
private theorem holds_update {source other : S} {written : File} {changed : ℤ}
    {P : File → Prop} (hother : other = source → written.changed ≠ changed)
    (hholds : (file other).changed = changed → P (file other)) :
    (Function.update file source written other).changed = changed →
      P (Function.update file source written other) := by
  by_cases heq : other = source
  · subst heq
    rw [Function.update_self]
    exact fun hchanged => absurd hchanged (hother rfl)
  · rw [Function.update_of_ne heq]
    exact hholds

private theorem PhaseInv.write {phase : Phase S} {source : S} {written : File}
    (hinv : PhaseInv hasher file verified phase)
    (hother : ∀ before, phase.observed = some before → before.node = source →
      written.changed ≠ before.changed)
    (hkept : ∀ other digest, verified other digest →
      (Function.update file source written other).bytes = (file other).bytes) :
    PhaseInv hasher (Function.update file source written) verified phase := by
  cases phase with
  | hashing digest node replaceInvalid before hashed =>
    refine ⟨hinv.1, holds_update (P := fun file => hashed <+: file.bytes)
      (fun heq => hother before rfl (hinv.1.trans heq)) hinv.2⟩
  | copying digest node replaceInvalid before temporary =>
    cases before with
    | none => exact ⟨hinv.1, by rw [hkept node digest hinv.1]; exact hinv.2⟩
    | some before =>
      exact ⟨hinv.1, holds_update
        (P := fun file => Matches hasher digest file.bytes ∧ temporary <+: file.bytes)
        (fun heq => hother before rfl (hinv.1.trans heq)) hinv.2⟩
  | copied digest node replaceInvalid before temporary =>
    cases before with
    | none => exact hinv
    | some before =>
      exact ⟨hinv.1, holds_update (P := fun _ => Matches hasher digest temporary)
        (fun heq => hother before rfl (hinv.1.trans heq)) hinv.2⟩
  | _ => exact hinv

private theorem sameIdentity_changed {before after : Metadata S}
    (hsame : sameIdentity before after = true) : before.changed = after.changed := by
  unfold sameIdentity at hsame
  split at hsame
  · cases hsame
  · split at hsame
    · cases hsame
    · rename_i hchanged
      by_contra hne
      exact hchanged (.inr hne)

private theorem PhaseInv.act {phase phase' : Phase S} {cas' : Cas S} {action : Action}
    (hinv : PhaseInv hasher file verified phase)
    (hverified : ∀ source digest, verified source digest →
      Matches hasher digest (file source).bytes)
    (hact : phase.act hasher file cas action = some (phase', cas')) :
    PhaseInv hasher file verified phase' ∧ ∀ digest stored, cas' digest = some stored →
      cas digest = some stored ∨ Admitted hasher verified digest stored := by
  have hsame : ∀ digest stored, cas digest = some stored →
      cas digest = some stored ∨ Admitted hasher verified digest stored :=
    fun digest stored hstored => .inl hstored
  unfold Phase.act at hact
  split at hact
  · cases hact
    exact ⟨trivial, hsame⟩
  · split at hact
    · cases hact
      exact ⟨trivial, hsame⟩
    · cases hact
      exact ⟨hinv, hsame⟩
  · split at hact
    · cases hact
      exact ⟨trivial, hsame⟩
    · split at hact
      · cases hact
        exact ⟨trivial, hsame⟩
      · cases hact
        exact ⟨hinv.proceed, hsame⟩
      · cases hact
        exact ⟨hinv.proceed, hsame⟩
  · rename_i digest source outcome
    have hadmitted : Admitted hasher verified digest (.moved source) := hinv
    split at hact
    · cases hact
      exact ⟨trivial, fun other stored hstored => admitted_update hadmitted hstored⟩
    · cases hact
      exact ⟨trivial, hsame⟩
    · cases hact
      exact ⟨hinv, hsame⟩
  · cases hact
    exact ⟨⟨rfl, fun _ => List.nil_prefix⟩, hsame⟩
  · dsimp only at hact
    split at hact
    · cases hact
      exact ⟨⟨hinv.1, fun hchanged => beginning_nextChunk (hinv.2 hchanged)⟩, hsame⟩
    · rename_i hend
      split at hact
      · rename_i hmatch
        cases hact
        refine ⟨⟨hinv.1, fun hchanged => ⟨?_, List.nil_prefix⟩⟩, hsame⟩
        rw [← eq_of_nextChunk_nil (hinv.2 hchanged) (not_not.1 hend)]
        exact hmatch
      · cases hact
        exact ⟨trivial, hsame⟩
  · rename_i digest source replaceInvalid before temporary count
    dsimp only at hact
    split at hact
    · cases hact
      cases before with
      | none => exact ⟨⟨hinv.1, beginning_nextChunk hinv.2⟩, hsame⟩
      | some before =>
        exact ⟨⟨hinv.1, fun hchanged => ⟨(hinv.2 hchanged).1,
          beginning_nextChunk (hinv.2 hchanged).2⟩⟩, hsame⟩
    · rename_i hend
      cases hact
      cases before with
      | none =>
        have hall := eq_of_nextChunk_nil hinv.2 (not_not.1 hend)
        refine ⟨?_, hsame⟩
        rw [PhaseInv, hall]
        exact hverified source digest hinv.1
      | some before =>
        refine ⟨⟨hinv.1, fun hchanged => ?_⟩, hsame⟩
        rw [eq_of_nextChunk_nil (hinv.2 hchanged).2 (not_not.1 hend)]
        exact (hinv.2 hchanged).1
  · split at hact
    · cases hact
      exact ⟨hinv, hsame⟩
    · split at hact
      · rename_i hidentity
        cases hact
        exact ⟨hinv.2 (sameIdentity_changed hidentity).symm, hsame⟩
      · cases hact
        exact ⟨trivial, hsame⟩
  · rename_i digest replaceInvalid temporary
    have hadmitted : Admitted hasher verified digest (.copied temporary) := hinv
    split at hact
    · cases hact
      exact ⟨trivial, hsame⟩
    · split at hact
      · cases hact
        exact ⟨trivial, hsame⟩
      · cases hact
        exact ⟨trivial, fun other stored hstored => admitted_update hadmitted hstored⟩
  · cases hact

variable [DecidableEq π]

private theorem State.Inv.step {s t : State S π} (hinv : s.Inv hasher)
    (hstep : Step hasher tick (OtherTick tick) s t) : t.Inv hasher := by
  cases hstep with
  | pass now hnow => exact ⟨hinv.verified, hinv.cas, hinv.phase⟩
  | write source file hmay hstamp hkept =>
    have hbytes : ∀ other digest, s.verified other digest →
        (Function.update s.files.file source file other).bytes =
          (s.files.file other).bytes := by
      intro other digest hverified
      by_cases heq : other = source
      · subst heq
        rw [Function.update_self]
        exact hkept digest hverified
      · rw [Function.update_of_ne heq]
    refine ⟨fun other digest hverified => ?_, hinv.cas, fun p => ?_⟩
    · dsimp only
      rw [hbytes other digest hverified]
      exact hinv.verified other digest hverified
    · refine (hinv.phase p).write (fun before hbefore hnode => ?_) hbytes
      rw [hstamp]
      exact hmay p before hbefore hnode
  | verify source digest hmatch =>
    refine ⟨?_, fun other stored hstored => ?_, fun p => (hinv.phase p).mono fun _ _ => .inl⟩
    · rintro other found (hverified | ⟨rfl, rfl⟩)
      · exact hinv.verified other found hverified
      · exact hmatch
    · have hadmitted := hinv.cas other stored hstored
      cases stored with
      | copied bytes => exact hadmitted
      | moved node => exact .inl hadmitted
  | call p call hidle hverified =>
    refine ⟨hinv.verified, hinv.cas, fun q => ?_⟩
    dsimp only
    by_cases heq : q = p
    · subst heq
      rw [Function.update_self]
      exact Call.start_inv hverified
    · rw [Function.update_of_ne heq]
      exact hinv.phase q
  | act p action phase cas hact =>
    obtain ⟨hphase, hcas⟩ := (hinv.phase p).act hinv.verified hact
    refine ⟨hinv.verified, fun digest stored hstored => ?_, fun q => ?_⟩
    · rcases hcas digest stored hstored with hold | hadmitted
      · exact hinv.cas digest stored hold
      · exact hadmitted
    · dsimp only
      by_cases heq : q = p
      · subst heq
        rw [Function.update_self]
        exact hphase
      · rw [Function.update_of_ne heq]
        exact hinv.phase q

/-- In every run in which no file is written in the tick of a change time that a process
has observed for it, every file at the path of a digest has this digest. -/
theorem cas_sound {s : State S π}
    (hreach : Runs.Reachable (State.Initial hasher) (Step hasher tick (OtherTick tick)) s) :
    s.Sound hasher :=
  State.Inv.sound (hreach.invariant (fun _ => .of_initial) fun _ _ hinv hstep => hinv.step hstep)

section Runs

/-- A hash function that tells one content from the others. -/
def markHasher : Hasher := fun _ bytes =>
  String.ofList (List.replicate 64 (if bytes = [1] then 'a' else 'b'))

/-- The digest of one byte. -/
def markDigest : Digest := ⟨"blake3", markHasher .blake3 [1], 1⟩

/-- A file that was written a moment ago. -/
def freshState : State Unit Unit where
  files := ⟨0, fun _ => ⟨[1], 0, 0⟩⟩
  cas _ := none
  verified _ _ := False
  phase _ := .idle

private theorem freshState_initial : freshState.Initial markHasher where
  phase _ := rfl
  verified _ _ hverified := hverified
  cas _ _ hstored := by cases hstored

/-- The file was hashed and is to be copied. -/
def hashedState : State Unit Unit :=
  { freshState with phase := fun _ => .copying markDigest () false (some ⟨(), 1, 0, 0⟩) [] }

private theorem hashedState_reachable (mayWrite : State Unit Unit → Unit → Prop) :
    Runs.Reachable (State.Initial markHasher) (Step markHasher 10 mayWrite) hashedState := by
  have hstart : Runs.Reachable (State.Initial markHasher) (Step markHasher 10 mayWrite)
      freshState := .start freshState_initial
  have hcalled := hstart.next (.call _ () (.storeFile markDigest ()) rfl trivial)
  have hobserved := (hcalled.next (.act _ () (.find .readable) _ _ rfl)).next
    (.act _ () .observe _ _ rfl)
  have hhashed := (hobserved.next (.act _ () (.read 1) _ _ rfl)).next
    (.act _ () (.read 1) (.copying markDigest () false (some ⟨(), 1, 0, 0⟩) []) _ rfl)
  convert hhashed using 1
  simp only [hashedState, freshState, State.mk.injEq, true_and]
  funext p
  rfl

theorem cas_sound_quiet :
    ∃ s : State Unit Unit, s.cas markDigest = some (.copied [1]) ∧ s.Sound markHasher := by
  have hcopied := ((hashedState_reachable (OtherTick 10)).next (.act _ () (.read 1) _ _ rfl)).next
    (.act _ () (.read 1) _ _ rfl)
  have hstored := (hcopied.next (.act _ () .recheck _ _ rfl)).next (.act _ () .persist _ _ rfl)
  exact ⟨_, rfl, cas_sound hstored⟩

/-- A write of the same length in the tick of the observed change time, with the
modification time set back, goes unnoticed: the copy is stored under the digest of what
was hashed. -/
theorem cas_unsound_same_tick :
    ∃ s : State Unit Unit,
      Runs.Reachable (State.Initial markHasher) (Step markHasher 10 fun _ _ => True) s ∧
        s.cas markDigest = some (.copied [2]) ∧ ¬s.Sound markHasher := by
  have hwritten := (hashedState_reachable fun _ _ => True).next
    (.write _ () ⟨[2], 0, 0⟩ trivial rfl fun _ hverified => hverified.elim)
  have hcopied := (hwritten.next (.act _ () (.read 1) _ _ rfl)).next (.act _ () (.read 1) _ _ rfl)
  have hstored := (hcopied.next (.act _ () .recheck _ _ rfl)).next (.act _ () .persist _ _ rfl)
  refine ⟨_, hstored, rfl, fun hsound => ?_⟩
  exact absurd (hsound markDigest _ rfl) (by decide +kernel)

end Runs

end MrBoxington.LocalCas
