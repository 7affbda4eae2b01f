import Mathlib.Logic.Relation

/-!
# Runs of a transition system

A state is reachable when some run of steps leads to it from an initial state.
An invariant is established at the start and kept by every step.
-/

namespace Runs

variable {σ : Type*} {initial : σ → Prop} {step : σ → σ → Prop}

/-- Some run from an initial state ends in `s`. -/
def Reachable (initial : σ → Prop) (step : σ → σ → Prop) (s : σ) : Prop :=
  ∃ start, initial start ∧ Relation.ReflTransGen step start s

theorem Reachable.start {s : σ} (hinitial : initial s) : Reachable initial step s :=
  ⟨s, hinitial, Relation.ReflTransGen.refl⟩

theorem Reachable.next {s t : σ} (hreach : Reachable initial step s) (hstep : step s t) :
    Reachable initial step t := by
  obtain ⟨start, hinitial, hrun⟩ := hreach
  exact ⟨start, hinitial, hrun.tail hstep⟩

/-- Fewer steps reach no more states. -/
theorem Reachable.mono {step' : σ → σ → Prop} {s : σ} (hreach : Reachable initial step s)
    (hsteps : ∀ s t, step s t → step' s t) : Reachable initial step' s := by
  obtain ⟨start, hinitial, hrun⟩ := hreach
  exact ⟨start, hinitial, Relation.ReflTransGen.mono hsteps _ _ hrun⟩

/-- What holds initially and is kept by every step holds in every reachable
state. -/
theorem Reachable.invariant {inv : σ → Prop} {s : σ} (hreach : Reachable initial step s)
    (hstart : ∀ s, initial s → inv s) (hkept : ∀ s t, inv s → step s t → inv t) : inv s := by
  obtain ⟨start, hinitial, hrun⟩ := hreach
  induction hrun with
  | refl => exact hstart start hinitial
  | tail _ hstep ih => exact hkept _ _ ih hstep

end Runs
