import Mathlib.Logic.Function.Basic
import Mathlib.Data.Int.Notation
import Mathlib.Tactic.Common

/-!
# Change times as evidence

A filesystem stamps every written file with the current time, rounded down to a
tick. Once the clock is a whole tick past a change time, no later write can give
a file that change time again. What is then true of the file while it shows that
change time stays true for as long as it shows it.
-/

namespace ChangeTime

/-- The time rounded down to a tick. -/
def roundDown (tick now : ℤ) : ℤ := now - now % tick

private theorem lt_roundDown {tick now changed : ℤ} (htick : 0 < tick)
    (hsettled : changed + tick ≤ now) :
    changed < roundDown tick now := by
  have hlt := Int.emod_lt_of_pos now htick
  unfold roundDown
  omega

/-- A clock, and the files of a system. -/
structure Store (N F : Type*) where
  now : ℤ
  file : N → F

variable {N F : Type*} {changed : F → ℤ} {tick : N → ℤ} {s t : Store N F} {n : N} {time : ℤ}
  {P Q : F → Prop}

/-- The clock is a tick past `time`, and the file at `n` satisfies `P` if it still has
that change time. -/
structure Pinned (changed : F → ℤ) (tick : N → ℤ) (s : Store N F) (n : N) (time : ℤ)
    (P : F → Prop) : Prop where
  settled : time + tick n ≤ s.now
  holds : changed (s.file n) = time → P (s.file n)

/-- What is pinned may be weakened where the change time still stands. -/
theorem Pinned.imp (hpinned : Pinned changed tick s n time P)
    (himp : changed (s.file n) = time → P (s.file n) → Q (s.file n)) :
    Pinned changed tick s n time Q :=
  ⟨hpinned.settled, fun htime => himp htime (hpinned.holds htime)⟩

variable [DecidableEq N]

/-- What happens to the files: time passes, and files are written or created. -/
inductive Step (changed : F → ℤ) (tick : N → ℤ) : Store N F → Store N F → Prop
  | stay (s : Store N F) : Step changed tick s s
  | pass (s : Store N F) {now : ℤ} (hnow : s.now ≤ now) : Step changed tick s { s with now := now }
  | write (s : Store N F) (n : N) (f : F) (hstamp : changed f = roundDown (tick n) s.now) :
      Step changed tick s { s with file := Function.update s.file n f }

theorem Step.now_le (hstep : Step changed tick s t) : s.now ≤ t.now := by
  cases hstep with
  | stay => exact Int.le_refl _
  | pass hnow => exact hnow
  | write => exact Int.le_refl _

/-- The step lemma: a step keeps what the change time pins. -/
theorem Pinned.step (hpinned : Pinned changed tick s n time P) (htick : 0 < tick n)
    (hstep : Step changed tick s t) : Pinned changed tick t n time P := by
  refine ⟨Int.le_trans hpinned.settled hstep.now_le, ?_⟩
  cases hstep with
  | stay => exact hpinned.holds
  | pass => exact hpinned.holds
  | write m f hstamp =>
    intro htime
    dsimp only at htime ⊢
    by_cases hnm : n = m
    · subst hnm
      -- The new stamp is later than the pinned change time.
      rw [Function.update_self, hstamp] at htime
      exact absurd (lt_roundDown htick hpinned.settled) (by omega)
    · rw [Function.update_of_ne hnm] at htime ⊢
      exact hpinned.holds htime

end ChangeTime
