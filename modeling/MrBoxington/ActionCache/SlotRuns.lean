import MrBoxington.Lib.LockPhases
import MrBoxington.Lib.Runs
import MrBoxington.ActionCache.Slot

/-!
# A slot acts on exactly the record it claimed

While a process holds an occupied slot, no other process can change which inode
the path names: replacing and removing take the lock of the named inode, and
publishing takes an absent path. So a replacement or removal through a slot hits
the very inode that the slot locked, read and judged.
-/

namespace MrBoxington.ActionCache

open LockFile (Phases)

/-- The handles and locks of the phases. -/
def slotPhases : Phases Phase := ⟨Phase.handle, Phase.locked⟩

private theorem Phase.locked_of_slot {phase : Phase} {i : ℕ} (hslot : phase.slot = some i) :
    phase.locked = some i := by
  cases phase with
  | claimed => exact hslot
  | cleared => exact hslot
  | _ => exact absurd hslot (by simp [Phase.slot])

variable {π Record Bytes : Type} {s t : SlotState π Record Bytes} {p q : π}

/-- What one step of `p` does to the record, seen from everybody else. -/
structure StepEffect (p : π) (s t : SlotState π Record Bytes) : Prop where
  job : ∀ q, q ≠ p → t.job q = s.job q
  content : ∀ i, i < s.disk.next → t.content i = s.content i
  /-- The path changes by publishing into an absent path, or through an occupied
  slot that was judged. -/
  path : t.disk.path ≠ s.disk.path →
    (s.disk.path = none ∧ ∃ rounds since senses, s.phase p = .cleared rounds none since senses) ∨
    ∃ rounds i since senses, s.phase p = .cleared rounds (some i) since senses
  fresh : t.disk.path ≠ s.disk.path → ∀ i, t.disk.path = some i → i = s.disk.next

private theorem effect_of_same_path (hjob : t.job = s.job) (hcontent : t.content = s.content)
    (hpath : t.disk.path = s.disk.path) : StepEffect p s t where
  job _ _ := by rw [hjob]
  content _ _ := by rw [hcontent]
  path h := absurd hpath h
  fresh h := absurd hpath h

variable [DecidableEq Record] {codec : Codec Record Bytes}

/-- What holds of the slot of process `p` in every state. -/
structure ProcInv (codec : Codec Record Bytes) (s : SlotState π Record Bytes) (p : π) : Prop where
  named : ∀ i, (s.phase p).slot = some i → s.disk.path = some i
  older : ∀ i, (s.phase p).slot = some i → i < (s.phase p).since
  since_le : (s.phase p).since ≤ s.disk.next
  /-- A slot about to be acted on was judged so on the bytes of its inode. -/
  judged : ∀ rounds slot since senses, s.phase p = .cleared rounds slot since senses →
    verdict codec (s.job p) (slot.map s.content) senses = .proceed

/-- What holds in every state of a record's path. -/
structure SlotInv (codec : Codec Record Bytes) (s : SlotState π Record Bytes) : Prop where
  tracks : slotPhases.Tracks s.disk s.phase
  proc : ∀ p, ProcInv codec s p

private theorem ProcInv.of_no_slot {phase : Phase} (hphase : s.phase p = phase)
    (hsince : phase.since = 0) (hslot : phase.slot = none)
    (hcleared : ∀ rounds slot since senses, phase ≠ .cleared rounds slot since senses) :
    ProcInv codec s p := by
  subst hphase
  refine ⟨fun i h => ?_, fun i h => ?_, ?_, fun _ _ _ _ h => absurd h (hcleared _ _ _ _)⟩
  · exact absurd (hslot.symm.trans h) (Option.some_ne_none i).symm
  · exact absurd (hslot.symm.trans h) (Option.some_ne_none i).symm
  · rw [hsince]
    exact Nat.zero_le _

private theorem SlotInv.of_initial (hinitial : s.Initial) : SlotInv codec s where
  tracks := .of_unused hinitial.path hinitial.opened hinitial.holder
    (fun p => by rw [hinitial.phase p]; rfl) (fun p => by rw [hinitial.phase p]; rfl)
  proc p := .of_no_slot (hinitial.phase p) rfl rfl (by simp)

private theorem SlotInv.path_eq (hinv : SlotInv codec s) (heffect : StepEffect p s t) (hne : q ≠ p)
    {i : ℕ} (hslot : (s.phase q).slot = some i) : t.disk.path = s.disk.path := by
  have hnamed := (hinv.proc q).named i hslot
  have hheld := hinv.tracks.holder q i (Phase.locked_of_slot hslot)
  by_contra hchange
  rcases heffect.path hchange with ⟨habsent, -⟩ | ⟨rounds, j, since, senses, hphase⟩
  · rw [habsent] at hnamed
    exact Option.some_ne_none i hnamed.symm
  · -- The acting process would have to hold the lock of the same inode.
    have hslot' : (s.phase p).slot = some j := by
      rw [hphase]
      rfl
    have hij : i = j := Option.some.inj (hnamed.symm.trans ((hinv.proc p).named j hslot'))
    have hheld' := hinv.tracks.holder p j (Phase.locked_of_slot hslot')
    rw [hij, hheld'] at hheld
    exact hne (Option.some.inj hheld).symm

variable [DecidableEq π]

private theorem SlotStep.tracked (hstep : SlotStep codec p s t) :
    ∃ ψ, t.phase = Function.update s.phase p ψ ∧
      slotPhases.Step p s.disk (s.phase p) t.disk ψ := by
  cases hstep with
  | start job hrest =>
    refine ⟨_, rfl, ?_⟩
    revert hrest
    cases s.phase p with
    | idle => exact fun _ => .stay rfl (fun _ h => h)
    | finished => exact fun _ => .stay rfl (fun _ h => h)
    | _ => exact fun hrest => hrest.elim
  | lookStop _ hphase => exact ⟨_, rfl, hphase ▸ .stay rfl (fun _ h => h)⟩
  | lookProceed _ hphase => exact ⟨_, rfl, hphase ▸ .stay rfl (fun _ h => h)⟩
  | lookExhausted hphase => exact ⟨_, rfl, hphase ▸ .stay rfl (fun _ h => h)⟩
  | openVacant hphase => exact ⟨_, rfl, hphase ▸ .stay rfl (fun _ h => h)⟩
  | openOccupied hphase hpath => exact ⟨_, rfl, hphase ▸ .openAt hpath rfl rfl rfl⟩
  | openExhausted hphase => exact ⟨_, rfl, hphase ▸ .stay rfl (fun _ h => h)⟩
  | lock hphase hfree => exact ⟨_, rfl, hphase ▸ .lock rfl hfree rfl rfl⟩
  | wouldBlock => exact ⟨_, rfl, .close rfl rfl⟩
  | checkSame hphase => exact ⟨_, rfl, hphase ▸ .stay rfl (fun _ h => h)⟩
  | checkChanged => exact ⟨_, rfl, .close rfl rfl⟩
  | judgeStop => exact ⟨_, rfl, .close rfl rfl⟩
  | judgeProceed _ hphase => exact ⟨_, rfl, hphase ▸ .stay rfl (fun _ h => h)⟩
  | publish hphase => exact ⟨_, rfl, hphase ▸ .relink rfl (fun _ h => h)⟩
  | publishTaken hphase => exact ⟨_, rfl, hphase ▸ .stay rfl (fun _ h => h)⟩
  | replace hphase => exact ⟨_, rfl, hphase ▸ .relink rfl (fun _ h => h)⟩
  | remove hphase => exact ⟨_, rfl, hphase ▸ .unlink rfl (fun _ h => h)⟩
  | close => exact ⟨_, rfl, .close rfl rfl⟩
  | abort => exact ⟨_, rfl, .close rfl rfl⟩

private theorem SlotStep.effect (hstep : SlotStep codec p s t) : StepEffect p s t := by
  cases hstep with
  | start job hrest =>
    exact ⟨fun _ hne => Function.update_of_ne hne _ _, fun _ _ => rfl, fun h => absurd rfl h,
      fun h => absurd rfl h⟩
  | publish hphase hjob hpath =>
    exact ⟨fun _ _ => rfl, fun i hi => Function.update_of_ne (Nat.ne_of_lt hi) _ _,
      fun _ => Or.inl ⟨hpath, _, _, _, hphase⟩, fun _ i hi => (Option.some.inj hi).symm⟩
  | replace hphase hjob =>
    exact ⟨fun _ _ => rfl, fun i hi => Function.update_of_ne (Nat.ne_of_lt hi) _ _,
      fun _ => Or.inr ⟨_, _, _, _, hphase⟩, fun _ i hi => (Option.some.inj hi).symm⟩
  | remove hphase hjob =>
    exact ⟨fun _ _ => rfl, fun _ _ => rfl, fun _ => Or.inr ⟨_, _, _, _, hphase⟩,
      fun _ i hi => absurd hi (Option.some_ne_none i).symm⟩
  | _ => exact effect_of_same_path rfl rfl rfl

private theorem ProcInv.other (hinv : SlotInv codec s) (hstep : SlotStep codec p s t)
    (hne : q ≠ p) :
    ProcInv codec t q := by
  have hproc := hinv.proc q
  have heffect := hstep.effect
  obtain ⟨ψ, hupdate, htracked⟩ := hstep.tracked
  have hphase : t.phase q = s.phase q := by rw [hupdate, Function.update_of_ne hne]
  refine ⟨?_, ?_, ?_, ?_⟩
  · intro i hslot
    rw [hphase] at hslot
    rw [hinv.path_eq heffect hne hslot]
    exact hproc.named i hslot
  · rw [hphase]
    exact hproc.older
  · rw [hphase]
    exact Nat.le_trans hproc.since_le (htracked.op hinv.tracks).next_le
  · intro rounds slot since senses hcleared
    rw [hphase] at hcleared
    rw [heffect.job q hne]
    have hsame : slot.map t.content = slot.map s.content := by
      cases slot with
      | none => rfl
      | some i =>
        have hnamed := hproc.named i (by rw [hcleared]; rfl)
        exact congrArg some (heffect.content i (hinv.tracks.sound.path_lt i hnamed))
    rw [hsame]
    exact hproc.judged rounds slot since senses hcleared

/-- A process keeps its own invariant: it gets a slot by checking the path, and
goes on to act on it by judging its bytes. -/
theorem ProcInv.own (hinv : SlotInv codec s) (hstep : SlotStep codec p s t) :
    ProcInv codec t p := by
  have hproc := hinv.proc p
  cases hstep with
  | openVacant hphase hpath =>
    constructor <;> simp [SlotState.enter, Phase.since, Phase.slot]
  | checkSame hphase hpath =>
    have hlt := hinv.tracks.sound.path_lt _ hpath
    constructor <;> simp [SlotState.enter, Phase.since, Phase.slot, hpath, hlt]
  | judgeProceed _ hphase hverdict =>
    have hnamed := hproc.named
    have holder := hproc.older
    have hsince := hproc.since_le
    rw [hphase] at hnamed holder hsince
    refine ⟨?_, ?_, ?_, ?_⟩
    · simpa [SlotState.enter, Phase.slot] using hnamed
    · simpa [SlotState.enter, Phase.slot, Phase.since] using holder
    · simpa [SlotState.enter, Phase.since] using hsince
    · intro rounds slot since senses hcleared
      simp only [SlotState.enter, Function.update_self, Phase.cleared.injEq] at hcleared
      obtain ⟨-, rfl, -, rfl⟩ := hcleared
      exact hverdict
  | _ => exact .of_no_slot (Function.update_self _ _ _) rfl rfl (by simp)

private theorem SlotInv.step (hinv : SlotInv codec s) (hstep : SlotStepAny codec s t) :
    SlotInv codec t := by
  obtain ⟨p, hstep⟩ := hstep
  obtain ⟨ψ, hupdate, htracked⟩ := hstep.tracked
  refine ⟨hupdate ▸ hinv.tracks.step htracked, fun q => ?_⟩
  by_cases hqp : q = p
  · subst hqp
    exact .own hinv hstep
  · exact .other hinv hstep hqp

private theorem SlotStep.of_claimed {rounds since : ℕ} {slot : Option ℕ}
    (hstep : SlotStep codec p s t)
    (hphase : s.phase p = .claimed rounds slot since) :
    t.disk.path = s.disk.path ∧ ((t.phase p).slot = none ∨
      ∃ senses, t.phase p = .cleared rounds slot since senses ∧
        verdict codec (s.job p) (slot.map s.content) senses = .proceed) := by
  cases hstep with
  | judgeStop => exact ⟨rfl, Or.inl (by simp [SlotState.move, Phase.slot])⟩
  | judgeProceed _ hclaimed hverdict =>
    rw [hphase] at hclaimed
    obtain ⟨rfl, rfl, rfl⟩ := Phase.claimed.inj hclaimed
    exact ⟨rfl, Or.inr ⟨_, Function.update_self _ _ _, hverdict⟩⟩
  | abort => exact ⟨rfl, Or.inl (by simp [SlotState.move, Phase.slot])⟩
  | start job hrest =>
    rw [hphase] at hrest
    exact hrest.elim
  | lookStop _ h => exact absurd (hphase.symm.trans h) (by simp)
  | lookProceed _ h => exact absurd (hphase.symm.trans h) (by simp)
  | lookExhausted h => exact absurd (hphase.symm.trans h) (by simp)
  | openVacant h => exact absurd (hphase.symm.trans h) (by simp)
  | openOccupied h => exact absurd (hphase.symm.trans h) (by simp)
  | openExhausted h => exact absurd (hphase.symm.trans h) (by simp)
  | lock h => exact absurd (hphase.symm.trans h) (by simp)
  | wouldBlock h => exact absurd (hphase.symm.trans h) (by simp)
  | checkSame h => exact absurd (hphase.symm.trans h) (by simp)
  | checkChanged h => exact absurd (hphase.symm.trans h) (by simp)
  | publish h => exact absurd (hphase.symm.trans h) (by simp)
  | publishTaken h => exact absurd (hphase.symm.trans h) (by simp)
  | replace h => exact absurd (hphase.symm.trans h) (by simp)
  | remove h => exact absurd (hphase.symm.trans h) (by simp)
  | close h => exact absurd (hphase.symm.trans h) (by simp)

/-- In every interleaving of writers and collectors on one record: a step changes
the path only by publishing into an absent path, or through an occupied slot, and
then the path names the very inode that the slot locked, that is older than the
claim, and whose bytes were judged under the slot to need the change. While a
process holds an occupied slot, a step of any other process leaves the path on
that slot's inode. Whatever is newly linked is newer than every claim still held.
And reading a slot touches nothing: the process then either goes on to act on it,
having judged so, or has given the slot up. -/
theorem slotStep_exact (hreach : Runs.Reachable SlotState.Initial (SlotStepAny codec) s)
    (hstep : SlotStep codec p s t) :
    (t.disk.path ≠ s.disk.path →
      (s.disk.path = none ∧
        ∃ rounds since senses, s.phase p = .cleared rounds none since senses) ∨
      ∃ rounds i since senses, s.phase p = .cleared rounds (some i) since senses ∧
        s.disk.path = some i ∧ s.disk.holder i = some p ∧ i < since ∧
        verdict codec (s.job p) (some (s.content i)) senses = .proceed) ∧
    (∀ q i, q ≠ p → (s.phase q).slot = some i →
      s.disk.path = some i ∧ t.disk.path = some i ∧ (t.phase q).slot = some i) ∧
    (t.disk.path ≠ s.disk.path → ∀ n, t.disk.path = some n → ∀ q, (s.phase q).since ≤ n) ∧
    (∀ rounds slot since, s.phase p = .claimed rounds slot since →
      t.disk.path = s.disk.path ∧ ((t.phase p).slot = none ∨
        ∃ senses, t.phase p = .cleared rounds slot since senses ∧
          verdict codec (s.job p) (slot.map s.content) senses = .proceed)) := by
  have hinv : SlotInv codec s := hreach.invariant (fun _ h => SlotInv.of_initial h)
    (fun _ _ h hstep => h.step hstep)
  have heffect := hstep.effect
  refine ⟨?_, ?_, ?_, ?_⟩
  · intro hchange
    refine (heffect.path hchange).imp id ?_
    rintro ⟨rounds, i, since, senses, hphase⟩
    have hproc := hinv.proc p
    have holder := hproc.older i (by rw [hphase]; rfl)
    rw [hphase] at holder
    exact ⟨rounds, i, since, senses, hphase, hproc.named i (by rw [hphase]; rfl),
      hinv.tracks.holder p i (by rw [hphase]; rfl), holder, hproc.judged _ _ _ _ hphase⟩
  · intro q i hne hslot
    have hnamed := (hinv.proc q).named i hslot
    refine ⟨hnamed, (hinv.path_eq heffect hne hslot).trans hnamed, ?_⟩
    obtain ⟨ψ, hupdate, -⟩ := hstep.tracked
    rw [hupdate, Function.update_of_ne hne]
    exact hslot
  · intro hchange n hn q
    rw [heffect.fresh hchange n hn]
    exact (hinv.proc q).since_le
  · exact fun _ _ _ hphase => hstep.of_claimed hphase

/-- Records that are their own bytes. -/
def plainCodec : Codec ℕ ℕ where
  encode := id
  parseRecord := some

/-- A path that holds record 5. -/
def heldRecord : SlotState Bool ℕ ℕ where
  disk := ⟨some 0, fun _ => none, fun _ => none, 1⟩
  content _ := 5
  job _ := .collect
  phase _ := .idle

/-- A writer that finds record 5 damaged replaces it, on the inode it claimed. -/
theorem slotStep_exact_repair :
    ∃ s t : SlotState Bool ℕ ℕ, SlotStep plainCodec true s t ∧ s.disk.path = some 0 ∧
      t.disk.path = some 1 ∧ t.content 1 = 7 ∧
      ∃ rounds i since senses, s.phase true = .cleared rounds (some i) since senses ∧
        s.disk.path = some i ∧ s.disk.holder i = some true ∧ i < since ∧
        verdict plainCodec (s.job true) (some (s.content i)) senses = .proceed := by
  have hinitial : heldRecord.Initial :=
    ⟨fun _ => rfl, fun _ => rfl, fun _ => rfl, fun i h => by
      rw [← Option.some.inj h]
      exact Nat.one_pos⟩
  have hstart : Runs.Reachable SlotState.Initial (SlotStepAny plainCodec) heldRecord :=
    .start hinitial
  -- The record does not verify, neither before nor after the claim.
  have hlooking := hstart.next ⟨true, .start (.store 7 true) trivial⟩
  have hopening := hlooking.next ⟨true, .lookProceed ⟨false, false, false⟩ rfl rfl⟩
  have hwaiting := hopening.next ⟨true, .openOccupied rfl rfl⟩
  have hchecking := hwaiting.next ⟨true, .lock rfl rfl⟩
  have hclaimed := hchecking.next ⟨true, .checkSame rfl rfl⟩
  have hcleared := hclaimed.next ⟨true, .judgeProceed ⟨false, false, false⟩ rfl rfl⟩
  obtain ⟨s, hreach, hphase, hjob, hpath, hnext⟩ : ∃ s : SlotState Bool ℕ ℕ,
      Runs.Reachable SlotState.Initial (SlotStepAny plainCodec) s ∧
      s.phase true = .cleared 7 (some 0) 1 ⟨false, false, false⟩ ∧
      s.job true = .store 7 true ∧ s.disk.path = some 0 ∧ s.disk.next = 1 :=
    ⟨_, hcleared, rfl, rfl, rfl, rfl⟩
  have hstep : SlotStep plainCodec true s _ := .replace hphase hjob
  have hpath' : (s.install true (plainCodec.encode 7)
      (.closing 0 (.store .stored))).disk.path = some 1 := by
    rw [← hnext]
    rfl
  refine ⟨s, _, hstep, hpath, hpath', ?_, ?_⟩
  · simp [SlotState.install, hnext, plainCodec]
  · refine ((slotStep_exact hreach hstep).1 ?_).resolve_left ?_
    · rw [hpath', hpath]
      decide
    · rintro ⟨habsent, -⟩
      rw [hpath] at habsent
      exact absurd habsent (by decide)

end MrBoxington.ActionCache
