import Mathlib.Data.Finset.Insert

/-!
# Checks that are made once per key

A loop that remembers the keys it has checked skips a check it has already
passed. As long as the outcome depends on the key alone, every remembered key
has passed.
-/

namespace CheckOnce

variable {κ : Type*}

/-- Remember `key`; the first time it is met, `passed` decides whether the loop
goes on. -/
def visit [DecidableEq κ] (seen : Finset κ) (key : κ) (passed : Bool) : Option (Finset κ) :=
  if key ∉ seen ∧ !passed then none else some (insert key seen)

/-- Every remembered key has passed its check. -/
def AllPassed (passes : κ → Prop) (seen : Finset κ) : Prop := ∀ key ∈ seen, passes key

theorem AllPassed.empty {passes : κ → Prop} : AllPassed passes ∅ :=
  fun _ hmem => absurd hmem (Finset.notMem_empty _)

theorem AllPassed.singleton {passes : κ → Prop} {key : κ} (hkey : passes key) :
    AllPassed passes {key} := by
  intro other hmem
  rw [Finset.mem_singleton.mp hmem]
  exact hkey

/-- A visit that goes on leaves every remembered key passed, the visited one
included. -/
theorem AllPassed.visit [DecidableEq κ] {passes : κ → Prop} {seen seen' : Finset κ} {key : κ}
    {passed : Bool} (hseen : AllPassed passes seen)
    (hkey : passed = true → passes key) (hvisit : visit seen key passed = some seen') :
    AllPassed passes seen' ∧ passes key := by
  unfold CheckOnce.visit at hvisit
  split at hvisit
  · exact absurd hvisit (by simp)
  · rename_i hgo
    have hpasses : passes key := by
      by_cases hmem : key ∈ seen
      · exact hseen key hmem
      · exact hkey (by simpa [hmem] using hgo)
    refine ⟨?_, hpasses⟩
    rw [← Option.some.inj hvisit]
    intro other hother
    rcases Finset.mem_insert.mp hother with rfl | hold
    · exact hpasses
    · exact hseen other hold

end CheckOnce
