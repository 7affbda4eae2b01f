import Mathlib.Data.List.Infix
import MrBoxington.Lib.Runs

/-!
# A value that is updated under a lock

Processes read a shared value, compute a new one from it and replace it, all while they
hold a lock. Any of them may fail or die on the way, which gives the lock back. Whatever
the interleaving, the value is what the updates that were written make of the first value,
one after another.
-/

namespace LockedUpdate

/-- Where a process is with its update. -/
inductive Phase (σ υ : Type*) where
  | idle
  | waiting (update : υ)
  | locked (update : υ)
  | seen (update : υ) (value : σ)
  | written (result : σ)
  | returned (result : σ)

/-- The process holds the lock. -/
def Phase.Holds {σ υ : Type*} : Phase σ υ → Prop
  | .locked _ => True
  | .seen _ _ => True
  | .written _ => True
  | _ => False

/-- The value, the lock, the processes, and the updates written so far, newest first. -/
structure Shared (σ υ π : Type*) where
  value : σ
  holder : Option π
  phase : π → Phase σ υ
  committed : List υ

variable {σ υ π : Type*} [DecidableEq π]

def Shared.set (s : Shared σ υ π) (p : π) (phase : Phase σ υ) : Shared σ υ π :=
  { s with phase := Function.update s.phase p phase }

/-- One step of a process. -/
inductive Step (apply : υ → σ → σ) : Shared σ υ π → Shared σ υ π → Prop
  | ask (s : Shared σ υ π) (p : π) (update : υ) (hidle : s.phase p = .idle) :
      Step apply s (s.set p (.waiting update))
  | lock (s : Shared σ υ π) (p : π) (update : υ) (hwaiting : s.phase p = .waiting update)
      (hfree : s.holder = none) : Step apply s { s.set p (.locked update) with holder := some p }
  | read (s : Shared σ υ π) (p : π) (update : υ) (hlocked : s.phase p = .locked update) :
      Step apply s (s.set p (.seen update s.value))
  | write (s : Shared σ υ π) (p : π) (update : υ) (value : σ)
      (hseen : s.phase p = .seen update value) :
      Step apply s { s.set p (.written (apply update value)) with
        value := apply update value, committed := update :: s.committed }
  | unlock (s : Shared σ υ π) (p : π) (result : σ) (hwritten : s.phase p = .written result) :
      Step apply s { s.set p (.returned result) with holder := none }
  /-- The process fails or dies. -/
  | abandon (s : Shared σ υ π) (p : π) :
      Step apply s { s.set p .idle with holder := if s.holder = some p then none else s.holder }

/-- The first value, before any process asks. -/
def Initial (start : σ) (s : Shared σ υ π) : Prop :=
  s.value = start ∧ s.holder = none ∧ (∀ p, s.phase p = .idle) ∧ s.committed = []

variable {apply : υ → σ → σ} {start : σ}

/-- A result is what the updates up to one of the written ones make of the first value. -/
def Committed (apply : υ → σ → σ) (start : σ) (committed : List υ) (result : σ) : Prop :=
  ∃ update earlier, update :: earlier <:+ committed ∧
    result = apply update (earlier.foldr apply start)

omit [DecidableEq π] in
private theorem Committed.cons {committed : List υ} {result : σ} {update : υ}
    (hcommitted : Committed apply start committed result) :
    Committed apply start (update :: committed) result := by
  obtain ⟨last, earlier, hsuffix, hresult⟩ := hcommitted
  exact ⟨last, earlier, hsuffix.trans (List.suffix_cons _ _), hresult⟩

/-- What is known about a process. -/
def Phase.Sound (apply : υ → σ → σ) (start : σ) (committed : List υ) : Phase σ υ → Prop
  | .seen _ value => value = committed.foldr apply start
  | .written result => Committed apply start committed result
  | .returned result => Committed apply start committed result
  | _ => True

/-- What every step maintains. -/
structure Shared.Sound (apply : υ → σ → σ) (start : σ) (s : Shared σ υ π) : Prop where
  value_eq : s.value = s.committed.foldr apply start
  holder : ∀ p, (s.phase p).Holds ↔ s.holder = some p
  phases : ∀ p, (s.phase p).Sound apply start s.committed

variable {s s' : Shared σ υ π} {p : π} {phase : Phase σ υ}

private theorem Shared.Sound.replace (hsound : s.Sound apply start)
    (hphase : s'.phase = Function.update s.phase p phase) (hvalue : s'.value = s.value)
    (hcommitted : s'.committed = s.committed) (hholds : phase.Holds ↔ s'.holder = some p)
    (hothers : ∀ q, q ≠ p → (s.holder = some q ↔ s'.holder = some q))
    (hknown : phase.Sound apply start s.committed) : s'.Sound apply start := by
  refine ⟨by rw [hvalue, hcommitted, hsound.value_eq], fun q => ?_, fun q => ?_⟩
  · by_cases hqp : q = p
    · rw [hqp, hphase, Function.update_self, hholds]
    · rw [hphase, Function.update_of_ne hqp, hsound.holder q, hothers q hqp]
  · rw [hcommitted, hphase]
    by_cases hqp : q = p
    · rw [hqp, Function.update_self]
      exact hknown
    · rw [Function.update_of_ne hqp]
      exact hsound.phases q

/-- Whoever writes has seen the value, and nobody else is between reading and writing. -/
theorem Shared.Sound.write {update : υ} {value : σ} (hsound : s.Sound apply start)
    (hseen : s.phase p = .seen update value) :
    Shared.Sound apply start { s.set p (.written (apply update value)) with
      value := apply update value, committed := update :: s.committed } := by
  have hvalue : value = s.committed.foldr apply start := by
    have hknown := hsound.phases p
    rwa [hseen] at hknown
  have hheld : s.holder = some p := (hsound.holder p).mp (by simp [hseen, Phase.Holds])
  refine ⟨by rw [hvalue]; rfl, fun q => ?_, fun q => ?_⟩
  · by_cases hqp : q = p
    · simp [hqp, Shared.set, Phase.Holds, hheld]
    · simp only [Shared.set, Function.update_of_ne hqp]
      exact hsound.holder q
  · by_cases hqp : q = p
    · simp only [hqp, Shared.set, Function.update_self]
      exact ⟨update, s.committed, List.suffix_rfl, by rw [hvalue]⟩
    · simp only [Shared.set, Function.update_of_ne hqp]
      have hknown := hsound.phases q
      cases hq : s.phase q with
      | seen other value =>
        -- Only the holder can be here.
        have hq' := (hsound.holder q).mp (by simp [hq, Phase.Holds])
        exact absurd (Option.some.inj (hq'.symm.trans hheld)) hqp
      | written result => exact Committed.cons (by rwa [hq] at hknown)
      | returned result => exact Committed.cons (by rwa [hq] at hknown)
      | idle => trivial
      | waiting other => trivial
      | locked other => trivial

private theorem Shared.Sound.step (hsound : s.Sound apply start) (hstep : Step apply s s') :
    s'.Sound apply start := by
  have hfree : ∀ p, ¬(s.phase p).Holds → s.holder ≠ some p := fun p hp hholder =>
    hp ((hsound.holder p).mpr hholder)
  cases hstep with
  | ask p update hidle =>
    exact hsound.replace rfl rfl rfl
      (iff_of_false id (hfree p (by simp [hidle, Phase.Holds]))) (fun _ _ => Iff.rfl) trivial
  | lock p update hwaiting hnone =>
    refine hsound.replace rfl rfl rfl (iff_of_true trivial rfl) (fun q hq => ?_) trivial
    simp [hnone, Ne.symm hq]
  | read p update hlocked =>
    exact hsound.replace rfl rfl rfl (iff_of_true trivial ((hsound.holder p).mp (by
      simp [hlocked, Phase.Holds]))) (fun _ _ => Iff.rfl) hsound.value_eq
  | write p update value hseen => exact hsound.write hseen
  | unlock p result hwritten =>
    have hheld : s.holder = some p := (hsound.holder p).mp (by simp [hwritten, Phase.Holds])
    have hknown := hsound.phases p
    rw [hwritten] at hknown
    refine hsound.replace rfl rfl rfl (iff_of_false id (by simp)) (fun q hq => ?_) hknown
    simp [hheld, Ne.symm hq]
  | abandon p =>
    refine hsound.replace rfl rfl rfl (iff_of_false id (by simp)) (fun q hq => ?_) trivial
    dsimp only
    split
    next hheld => simp [hheld, Ne.symm hq]
    next => rfl

/-- The value is what the written updates make of the first one in the order of their
writes, and every process was returned such a value. -/
theorem sequential (hreach : Runs.Reachable (Initial start) (Step apply) s) :
    s.value = s.committed.foldr apply start ∧
      ∀ p result, s.phase p = .returned result → Committed apply start s.committed result := by
  have hsound : s.Sound apply start := by
    refine hreach.invariant ?_ fun _ _ hsound hstep => hsound.step hstep
    rintro s ⟨hvalue, hholder, hphase, hcommitted⟩
    exact ⟨by rw [hvalue, hcommitted]; rfl, fun p => by simp [hphase p, hholder, Phase.Holds],
      fun p => by rw [hphase p]; trivial⟩
  refine ⟨hsound.value_eq, fun p result hreturned => ?_⟩
  have hknown := hsound.phases p
  rwa [hreturned] at hknown

end LockedUpdate
